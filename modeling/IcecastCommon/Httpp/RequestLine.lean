import IcecastCommon.Httpp.RequestRoundTrip

/- The grammar of a request line: a known method, a URI and a version with runs of spaces
   between them. The scan of `httpp_parse` looks at the first `scanned` bytes of its line
   only, and what it accepts is a line whose front has three words. Both are the same where
   the length of the line fits an `int`. -/
namespace IcecastCommon.Httpp
open Avl Library
open Encoding (Bytes nul cString cString_of_plain cString_append_nul)

/-! The words of a line. -/

/-- Behind a run of spaces the first word begins. -/
theorem spaces_of_starts {i u : Nat} {t : Bytes} {rest : List Nat} (h : wordStarts i true t = u :: rest) :
    ∃ n c b, t = spaces n ++ c :: b ∧ c ≠ space ∧ u = i + n ∧ rest = wordStarts (u + 1) false b := by
  induction t generalizing i with
  | nil => cases h
  | cons c t ih =>
    rw [wordStarts] at h
    by_cases hc : c = space
    · rw [if_pos hc] at h
      obtain ⟨n, d, b, rfl, hd, rfl, hrest⟩ := ih h
      refine ⟨n + 1, d, b, ?_, hd, by omega, hrest⟩
      rw [hc, spaces, spaces, List.replicate_succ, List.cons_append]
    · rw [if_neg hc, if_pos rfl] at h
      obtain ⟨rfl, rfl⟩ := List.cons.inj h
      exact ⟨0, c, t, rfl, hc, rfl, rfl⟩

theorem spaces_of_none {i : Nat} {t : Bytes} (h : wordStarts i true t = []) : ∃ n, t = spaces n := by
  induction t generalizing i with
  | nil => exact ⟨0, rfl⟩
  | cons c t ih =>
    rw [wordStarts] at h
    by_cases hc : c = space
    · rw [if_pos hc] at h
      obtain ⟨n, rfl⟩ := ih h
      exact ⟨n + 1, by rw [hc, spaces, spaces, List.replicate_succ]⟩
    · rw [if_neg hc, if_pos rfl] at h
      cases h

/-- A string is a word, empty or not, and what begins with a space behind it. -/
theorem exists_front (t : Bytes) : ∃ a b, t = a ++ b ∧ space ∉ a ∧ (b = [] ∨ ∃ b', b = space :: b') := by
  by_cases h : space ∈ t
  · obtain ⟨a, b, rfl, ha⟩ := List.eq_append_cons_of_mem h
    exact ⟨a, space :: b, rfl, ha, Or.inr ⟨b, rfl⟩⟩
  · exact ⟨t, [], (List.append_nil t).symm, h, Or.inl rfl⟩

/-- The next word lies behind what is left of this one and a run of spaces. -/
theorem word_of_starts {i u : Nat} {t : Bytes} {rest : List Nat} (h : wordStarts i false t = u :: rest) :
    ∃ a n c b, t = a ++ space :: (spaces n ++ c :: b) ∧ space ∉ a ∧ c ≠ space ∧
      u = i + a.length + 1 + n ∧ rest = wordStarts (u + 1) false b := by
  obtain ⟨a, b, rfl, ha, hb⟩ := exists_front t
  rw [wordStarts_inside ha] at h
  rcases hb with rfl | ⟨b, rfl⟩
  · cases h
  · rw [wordStarts_space] at h
    obtain ⟨n, c, b, rfl, hc, hu, hrest⟩ := spaces_of_starts h
    exact ⟨a, n, c, b, rfl, ha, hc, hu, hrest⟩

theorem word_of_none {i : Nat} {t : Bytes} (h : wordStarts i false t = []) : ∃ a n, t = a ++ spaces n ∧ space ∉ a := by
  obtain ⟨a, b, rfl, ha, hb⟩ := exists_front t
  rw [wordStarts_inside ha] at h
  rcases hb with rfl | ⟨b, rfl⟩
  · exact ⟨a, 0, rfl, ha⟩
  · rw [wordStarts_space] at h
    obtain ⟨n, rfl⟩ := spaces_of_none h
    exact ⟨a, n + 1, by rw [spaces, spaces, List.replicate_succ], ha⟩

/-! The grammar. -/

namespace ThreeWords
variable (l : ThreeWords)

/-- The method is one of the known ones, in any letter case. -/
def Known : Prop := ∃ reqType, (l.method.map toUpper, reqType) ∈ methodNames

/-- The version has a `'/'` whose first occurrence is neither at its start nor at its end. -/
def Versioned : Prop :=
  ∃ protocol number, l.version = protocol ++ slash :: number ∧ slash ∉ protocol ∧ protocol ≠ [] ∧ number ≠ []

end ThreeWords

/-- A line of the grammar. -/
def RequestLine (s : Bytes) : Prop := ∃ l : ThreeWords, l.text = s ∧ l.Known ∧ l.Versioned

theorem versionOf_isSome (s : Bytes) : (versionOf s).isSome = true ↔
    ∃ protocol number, s = protocol ++ slash :: number ∧ slash ∉ protocol ∧ protocol ≠ [] ∧ number ≠ [] := by
  constructor
  · intro h
    rw [versionOf] at h
    cases hcut : cutAt slash s with
    | none =>
      rw [hcut] at h
      cases h
    | some parts =>
      obtain ⟨protocol, number⟩ := parts
      obtain ⟨hs, hslash⟩ := cutAt_some hcut
      rw [hcut] at h
      by_cases hne : protocol ≠ [] ∧ number ≠ []
      · exact ⟨protocol, number, hs, hslash, hne⟩
      · dsimp only at h
        rw [if_neg hne] at h
        cases h
  · rintro ⟨protocol, number, rfl, hslash, hne⟩
    rw [versionOf, cutAt_append hslash]
    dsimp only
    rw [if_pos hne]
    rfl

theorem toUpper_toLower (c : UInt8) : toUpper (toLower c) = toUpper c := by
  apply UInt8.toNat_inj.mp
  rw [toNat_toUpper, toNat_toUpper, toNat_toLower]
  split_ifs <;> omega

theorem methodNames_toUpper : ∀ entry ∈ methodNames, entry.1.map toUpper = entry.1 ∧ nul ∉ entry.1 := by decide

/-- What `httpp_str_to_method` knows has a text to store. -/
theorem reqTypeText_known {method : Bytes} (h : nul ∉ method) :
    (reqTypeText (httppStrToMethod method)).isSome = true ↔
      ∃ reqType, (method.map toUpper, reqType) ∈ methodNames := by
  constructor
  · intro hsome
    cases hfind : methodNames.find? fun entry => sameIgnoringCase entry.1 method with
    | none =>
      have hunknown : httppStrToMethod method = .unknown := by rw [httppStrToMethod, hfind]
      rw [hunknown] at hsome
      exact absurd hsome (by decide)
    | some entry =>
      obtain ⟨hentry, hplain⟩ := methodNames_toUpper entry (List.mem_of_find?_eq_some hfind)
      have hsame : entry.1.map toLower = method.map toLower := by
        have hfound := List.find?_some hfind
        simpa [sameIgnoringCase, cString_of_plain h, cString_of_plain hplain] using hfound
      have hupper : method.map toUpper = entry.1 := by
        calc method.map toUpper
            = (method.map toLower).map toUpper := by
              rw [List.map_map]
              exact List.map_congr_left fun c _ => (toUpper_toLower c).symm
          _ = (entry.1.map toLower).map toUpper := by rw [hsame]
          _ = entry.1.map toUpper := by
              rw [List.map_map]
              exact List.map_congr_left fun c _ => toUpper_toLower c
          _ = entry.1 := hentry
      refine ⟨entry.2, ?_⟩
      rw [hupper]
      exact List.mem_of_find?_eq_some hfind
  · rintro ⟨reqType, hmem⟩
    obtain ⟨hfound, htext⟩ := methodNames_found _ hmem
    have hupper := (methodNames_toUpper _ hmem).2
    rw [← httppStrToMethod_upper h hupper, hfound, htext]
    rfl

/-- A string with two words behind its first one. -/
theorem exists_threeWords {t : Bytes} {u v : Nat} (h : wordStarts 0 false t = [u, v]) :
    ∃ l : ThreeWords, l.text = t ∧ l.front.length = v := by
  obtain ⟨method, between, c, b, rfl, hmethod, hc, _, hrest⟩ := word_of_starts h
  obtain ⟨uri, behind, d, b', rfl, huri, hd, _, hrest'⟩ := word_of_starts hrest.symm
  obtain ⟨version, trailing, rfl, hversion⟩ := word_of_none hrest'.symm
  let l : ThreeWords := ⟨method, between, c :: uri, behind, d :: version, trailing, hmethod, List.cons_ne_nil _ _,
    noSpace_cons.mpr ⟨hc, huri⟩, List.cons_ne_nil _ _, noSpace_cons.mpr ⟨hd, hversion⟩⟩
  have htext : l.text = method ++ space :: (spaces between ++ c ::
      (uri ++ space :: (spaces behind ++ d :: (version ++ spaces trailing)))) := by
    simp [l, ThreeWords.text, ThreeWords.front]
  refine ⟨l, htext, ?_⟩
  rw [← htext, l.wordStarts_text] at h
  exact (List.cons.inj (List.cons.inj h).2).1

/-! What is accepted. -/

namespace ThreeWords
variable {l : ThreeWords} {s : Bytes}

theorem accepted_iff (h : l.text = s.take (scanned s)) (hs : nul ∉ s) :
    (requestEffect s).accepted = true ↔
      l.Known ∧ (versionOf (l.read (s.drop (scanned s)))).isSome = true := by
  have hknown := reqTypeText_known (plain h hs).1
  rw [effect h hs, versionEffect, ThreeWords.Known, ← hknown]
  cases versionOf (l.read (s.drop (scanned s))) with
  | none => simp
  | some parts =>
    cases reqTypeText (httppStrToMethod l.method) with
    | none => simp
    | some _ => simp

end ThreeWords

/-- The first `scanned` bytes of the line are three words, as they are looked at. -/
def Looks (s : Bytes) : Prop :=
  ∃ l : ThreeWords, l.text = s.take (scanned s) ∧ l.Known ∧
    (versionOf (l.read (s.drop (scanned s)))).isSome = true

/-- An accepted line looks like a request in its front. -/
theorem looks_of_accepted {s : Bytes} (hs : nul ∉ s) (h : (requestEffect s).accepted = true) : Looks s := by
  have hwords : ∃ u v, lineWords s = [u, v] := by
    rw [requestEffect] at h
    rcases hwords : lineWords s with _ | ⟨u, _ | ⟨v, _ | _⟩⟩
    · rw [hwords] at h
      cases h
    · rw [hwords, if_neg (by simp)] at h
      rw [show [u][1]? = none from rfl, wordsEffect_one] at h
      cases h
    · exact ⟨u, v, rfl⟩
    · rw [hwords, if_pos (by simp)] at h
      cases h
  obtain ⟨u, v, hwords⟩ := hwords
  obtain ⟨l, htext, _⟩ := exists_threeWords hwords
  exact ⟨l, htext, (ThreeWords.accepted_iff htext hs).mp h⟩

theorem accepted_iff_looks {s : Bytes} (hs : nul ∉ s) : (requestEffect s).accepted = true ↔ Looks s :=
  ⟨looks_of_accepted hs, fun ⟨_, htext, hl⟩ => (ThreeWords.accepted_iff htext hs).mpr hl⟩

/-! Against the grammar. -/

namespace ThreeWords
variable {l : ThreeWords} {s : Bytes}

/-- What the scan does not look at ends the line well: what is left of the version, if the
scan stops in it, and spaces. -/
def Ends (l : ThreeWords) (rest : Bytes) : Prop :=
  if l.trailing = 0 then ∃ version n, rest = version ++ spaces n ∧ space ∉ version ∧
    ∃ protocol number, l.version ++ version = protocol ++ slash :: number ∧ slash ∉ protocol ∧
      protocol ≠ [] ∧ number ≠ []
  else ∃ n, rest = spaces n

theorem spaces_add (m n : Nat) : spaces m ++ spaces n = spaces (m + n) := List.replicate_append_replicate ..

/-- Nothing but spaces can be cut off a run of spaces. -/
theorem spaces_split {n : Nat} {a b : Bytes} (h : spaces n = a ++ b) : ∃ i j, a = spaces i ∧ b = spaces j := by
  have hall : ∀ c ∈ a ++ b, c = space := by
    rw [← h]
    intro c hc
    exact List.eq_of_mem_replicate hc
  refine ⟨a.length, b.length, ?_, ?_⟩
  · exact List.eq_replicate_of_mem fun c hc => hall c (List.mem_append_left _ hc)
  · exact List.eq_replicate_of_mem fun c hc => hall c (List.mem_append_right _ hc)

theorem spaces_nil {n : Nat} {a : Bytes} (ha : a = spaces n) (h : space ∉ a) : a = [] := by
  cases n with
  | zero => exact ha
  | succ n =>
    rw [ha, spaces, List.replicate_succ] at h
    exact absurd List.mem_cons_self h

/-- A word up to spaces, and the same bytes as a part of a word and what is behind it. -/
theorem word_split {word version rest : Bytes} {n : Nat} (hversion : space ∉ version)
    (h : word ++ spaces n = version ++ rest) : ∃ a, word = version ++ a ∧ rest = a ++ spaces n := by
  rcases List.append_eq_append_iff.mp h with ⟨a, hv, hn⟩ | ⟨a, hw, hrest⟩
  · obtain ⟨i, j, ha, _⟩ := spaces_split hn
    have hnil : a = [] := spaces_nil ha fun hm => hversion (hv ▸ List.mem_append_right _ hm)
    subst hnil
    exact ⟨[], by simpa using hv.symm, by simpa using hn.symm⟩
  · exact ⟨a, hw, hrest⟩

theorem ends_of_requestLine (h : l.text = s.take (scanned s)) (hline : RequestLine s) :
    l.Ends (s.drop (scanned s)) := by
  obtain ⟨whole, hwhole, _, hversioned⟩ := hline
  have hsplit : s = l.text ++ s.drop (scanned s) := by rw [h, List.take_append_drop]
  -- both versions begin where the second word behind spaces does
  have hstart : l.front.length = whole.front.length := by
    have hstarts := wordStarts_take (scanned s) 0 false s
    rw [← h, l.wordStarts_text, ← hwhole, whole.wordStarts_text] at hstarts
    have hsub := List.filter_sublist (p := fun u => decide (u < 0 + scanned whole.text))
      (l := [whole.method.length + 1 + whole.between, whole.front.length])
    rw [← hstarts] at hsub
    have hsame := hsub.eq_of_length (by simp)
    exact (List.cons.inj (List.cons.inj hsame).2).1
  have hrest : whole.version ++ spaces whole.trailing =
      l.version ++ (spaces l.trailing ++ s.drop (scanned s)) := by
    calc whole.version ++ spaces whole.trailing
        = s.drop whole.front.length := by rw [← hwhole, text, List.drop_left]
      _ = s.drop l.front.length := by rw [hstart]
      _ = (l.front ++ (l.version ++ (spaces l.trailing ++ s.drop (scanned s)))).drop l.front.length := by
          conv_lhs => rw [hsplit, text]
          simp
      _ = l.version ++ (spaces l.trailing ++ s.drop (scanned s)) := List.drop_left
  obtain ⟨a, hword, hbehind⟩ := word_split l.version_noSpace hrest
  have ha : space ∉ a := fun hm => whole.version_noSpace (hword ▸ List.mem_append_right _ hm)
  rw [Ends]
  by_cases htrailing : l.trailing = 0
  · rw [if_pos htrailing]
    rw [htrailing, show spaces 0 = [] from rfl, List.nil_append] at hbehind
    refine ⟨a, whole.trailing, hbehind, ha, ?_⟩
    rw [← hword]
    exact hversioned
  · rw [if_neg htrailing]
    obtain ⟨n, hn⟩ := Nat.exists_eq_succ_of_ne_zero htrailing
    have hnil : a = [] := by
      cases a with
      | nil => rfl
      | cons c a =>
        rw [hn, spaces, List.replicate_succ] at hbehind
        have hc : space = c := (List.cons.inj hbehind).1
        rw [← hc] at ha
        exact absurd List.mem_cons_self ha
    subst hnil
    obtain ⟨i, j, _, hj⟩ := spaces_split (show spaces whole.trailing = _ from hbehind.symm)
    exact ⟨j, hj⟩

theorem requestLine_of_ends (h : l.text = s.take (scanned s)) (hknown : l.Known)
    (hversion : (versionOf (l.read (s.drop (scanned s)))).isSome = true) (hends : l.Ends (s.drop (scanned s))) :
    RequestLine s := by
  have hsplit : s = l.text ++ s.drop (scanned s) := by rw [h, List.take_append_drop]
  rw [Ends] at hends
  by_cases htrailing : l.trailing = 0
  · rw [if_pos htrailing] at hends
    obtain ⟨version, n, hrest, hnoSpace, hversioned⟩ := hends
    have hne : l.version ++ version ≠ [] := by simp [l.version_ne]
    have hspace : space ∉ l.version ++ version := by
      rw [List.mem_append, not_or]
      exact ⟨l.version_noSpace, hnoSpace⟩
    refine ⟨l.withVersion (l.version ++ version) n hne hspace, ?_, hknown, hversioned⟩
    rw [hsplit, hrest, text, text, htrailing]
    simp [withVersion, front, spaces]
  · rw [if_neg htrailing] at hends
    obtain ⟨n, hrest⟩ := hends
    rw [read, if_neg htrailing] at hversion
    refine ⟨l.withVersion l.version (l.trailing + n) l.version_ne l.version_noSpace, ?_, hknown,
      (versionOf_isSome l.version).mp hversion⟩
    rw [hsplit, hrest, text, text, withVersion, ← spaces_add]
    simp [front]

/-- A line that is looked at behind the start of its version looks like itself. -/
theorem looks (h : l.text = s) (hknown : l.Known) (hversioned : l.Versioned)
    (hshort : l.front.length < scanned s) : Looks s := by
  obtain ⟨l', htaken, hmethod, _, hread⟩ := exists_taken h hshort
  obtain ⟨protocol, number, hversion, hslash, hprotocol, hnumber⟩ := hversioned
  refine ⟨l', htaken, ?_, ?_⟩
  · rw [Known, hmethod]
    exact hknown
  · rw [versionOf_isSome]
    rcases hread with hread | hread
    · refine ⟨protocol, number ++ spaces l.trailing, ?_, hslash, hprotocol, by simp [hnumber]⟩
      rw [hread, hversion]
      simp
    · exact ⟨protocol, number, hread.trans hversion, hslash, hprotocol, hnumber⟩

end ThreeWords

/-- The scan stops before the version of a request line. -/
def CutShort (s : Bytes) : Prop :=
  ∃ l : ThreeWords, l.text = s ∧ l.Known ∧ l.Versioned ∧ scanned s ≤ l.front.length

/-- The front of a line that the scan looks at is a request, with what is behind it read as
part of the version, but what is behind it does not end a request line. -/
def Misread (s : Bytes) : Prop :=
  ∃ l : ThreeWords, l.text = s.take (scanned s) ∧ l.Known ∧
    (versionOf (l.read (s.drop (scanned s)))).isSome = true ∧ ¬ l.Ends (s.drop (scanned s))

theorem accepted_iff_requestLine {s : Bytes} (hs : nul ∉ s) :
    ((requestEffect s).accepted = true ↔ RequestLine s) ↔ ¬ CutShort s ∧ ¬ Misread s := by
  constructor
  · intro h
    constructor
    · rintro ⟨l, htext, hknown, hversioned, hlong⟩
      have haccepted := h.mpr ⟨l, htext, hknown, hversioned⟩
      rw [ThreeWords.rejected_short htext hlong] at haccepted
      cases haccepted
    · rintro ⟨l, htext, hknown, hversion, hends⟩
      have haccepted := (ThreeWords.accepted_iff htext hs).mpr ⟨hknown, hversion⟩
      exact hends (ThreeWords.ends_of_requestLine htext (h.mp haccepted))
  · rintro ⟨hshort, hread⟩
    rw [accepted_iff_looks hs]
    constructor
    · rintro ⟨l, htext, hknown, hversion⟩
      apply ThreeWords.requestLine_of_ends htext hknown hversion
      by_contra hends
      exact hread ⟨l, htext, hknown, hversion, hends⟩
    · rintro ⟨l, htext, hknown, hversioned⟩
      apply ThreeWords.looks htext hknown hversioned
      by_contra hlong
      exact hshort ⟨l, htext, hknown, hversioned, Nat.le_of_not_lt hlong⟩

/-! What a new parser makes of a line. -/

/-- `httpp_parse` on a new parser returns 1 or 0, 1 exactly on a request line, and where it
returns 0 the variables are those that the first line alone leaves. -/
def Decides (text : Bytes) : Prop :=
  ∃ result p, parseNew .request [] text = some (result, p) ∧ (result = 1 ∨ result = 0) ∧
    (result = 1 ↔ RequestLine (firstLine text)) ∧
    (result = 0 → ∃ q, parseNew .request [] (firstLine text) = some (0, q) ∧
      readEntries p.mem p.vars = readEntries q.mem q.vars)

theorem parseNew_represents (kind : MessageKind) (defaults : VarList) : ∃ m, ∀ text, ∃ p,
    parseNew kind defaults text = some (if (lineEffect kind (firstLine text)).accepted then 1 else 0, p) ∧
    Represents p (((lineEffect kind (firstLine text)).all (headersCalls text)).foldl StoreCall.apply m) := by
  obtain ⟨p₀, e₀, R₀, _⟩ := represents_new
  obtain ⟨p₁, e₁, R₁, _⟩ := R₀.defaults defaults
  have hnew : newParser defaults = some p₁ := by rw [newParser, e₀, Option.bind_some, e₁]
  refine ⟨(defaultCalls defaults).foldl StoreCall.apply Maps.empty, ?_⟩
  intro text
  obtain ⟨p, e, R, _⟩ := parseMessage_spec R₁ kind text
  exact ⟨p, by rw [parseNew, hnew, Option.bind_some, e], R⟩

/-- Exactly the lines of the grammar are accepted where the scan does not stop before the
version and is not misled by what it does not look at; a rejected request stores no header
in any case. -/
theorem request_line (text : Bytes) :
    Decides text ↔ ¬ CutShort (firstLine text) ∧ ¬ Misread (firstLine text) := by
  obtain ⟨m, hparse⟩ := parseNew_represents .request []
  obtain ⟨p, e, R⟩ := hparse text
  obtain ⟨q, e', R'⟩ := hparse (firstLine text)
  have hkind : lineEffect .request = requestEffect := rfl
  rw [hkind] at e R e' R'
  rw [firstLine_idem] at e' R'
  have hone := returned_iff (requestEffect (firstLine text)).accepted
  rw [← accepted_iff_requestLine (firstLine_plain text), ← hone, Decides]
  constructor
  · rintro ⟨result, p', e₁, _, hresult, _⟩
    obtain ⟨rfl, _⟩ := Prod.mk.inj (Option.some.inj (e.symm.trans e₁))
    exact hresult
  · intro hresult
    refine ⟨_, p, e, returned_cases _, hresult, ?_⟩
    intro hzero
    rw [hzero] at e'
    refine ⟨q, e', ?_⟩
    have hrejected : (requestEffect (firstLine text)).accepted = false := by
      rw [← Bool.not_eq_true, ← hone, hzero]
      decide
    rw [LineEffect.all, hrejected, if_neg Bool.false_ne_true] at R R'
    exact R.readEntries_eq R' (s := .vars) rfl

/-- Below 2 GiB the first line is looked at whole. -/
theorem request_line_short {s : Bytes} (h : s.length < 2 ^ 31) : ¬ CutShort s ∧ ¬ Misread s := by
  have hwhole := scanned_short h
  constructor
  · rintro ⟨l, htext, _, _, hlong⟩
    have hversion := List.length_pos_iff.mpr l.version_ne
    rw [hwhole, ← htext, ThreeWords.text, List.length_append, List.length_append] at hlong
    omega
  · rintro ⟨l, htext, _, hversion, hends⟩
    apply hends
    rw [hwhole, List.drop_length] at hversion ⊢
    rw [ThreeWords.Ends]
    by_cases htrailing : l.trailing = 0
    · rw [ThreeWords.read, if_pos htrailing, List.append_nil] at hversion
      rw [if_pos htrailing]
      refine ⟨[], 0, rfl, List.not_mem_nil, ?_⟩
      rw [List.append_nil]
      exact (versionOf_isSome l.version).mp hversion
    · rw [if_neg htrailing]
      exact ⟨0, rfl⟩

theorem Request.words_versioned (r : Request) : r.words.Versioned :=
  ⟨r.protocol, r.version, rfl, r.noSlash, r.protocolWord.nonempty, r.versionWord.nonempty⟩

theorem Request.firstLine_line (r : Request) : firstLine r.line = r.line :=
  List.takeWhile_eq_self_iff.mpr fun c hc => decide_eq_true (r.line_clean c hc)

theorem Request.requestLine (r : Request) : RequestLine (firstLine r.line) := by
  rw [r.firstLine_line]
  exact ⟨r.words, r.words_text.1, r.known, r.words_versioned⟩

/-- The length of the line is negative as an `int`, and nothing of it is looked at. -/
theorem request_line_fails : RequestLine (firstLine (longRequest (2 ^ 31)).line) ∧
    (∃ p, parseNew .request [] (longRequest (2 ^ 31)).line = some (0, p)) ∧
    ¬ Decides (longRequest (2 ^ 31)).line := by
  obtain ⟨hfront, hline⟩ := longRequest_length (2 ^ 31)
  obtain ⟨_, hparse⟩ := parseNew_represents .request []
  obtain ⟨p, e, _⟩ := hparse (longRequest (2 ^ 31)).line
  generalize longRequest (2 ^ 31) = r at *
  have hscan : ¬ r.front.length < scanned r.line := by
    rw [scanned, toInt_eq, hline, hfront]
    omega
  have hrejected : (lineEffect .request r.line).accepted = false := by
    rw [← Bool.not_eq_true, lineEffect, r.accepted_iff]
    exact hscan
  rw [r.firstLine_line, hrejected] at e
  refine ⟨r.requestLine, ⟨p, e⟩, ?_⟩
  rintro ⟨result, q, e', _, hresult, _⟩
  obtain ⟨rfl, _⟩ := Prod.mk.inj (Option.some.inj (e.symm.trans e'))
  cases hresult.mpr r.requestLine

end IcecastCommon.Httpp
