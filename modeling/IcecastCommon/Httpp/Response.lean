import IcecastCommon.Httpp.Request

/- What `httpp_parse_response` does to a parser. The first line is cut at spaces up to its
   third word, which goes on to the end of the line. -/
namespace IcecastCommon.Httpp
open Avl Library
open Encoding (Bytes nul cString cString_of_plain cString_append_nul nul_notMem_cString)

/-- The loop over a first line that `found` words of already. -/
theorem responseLoop_spec (done t r : Bytes) {n : Nat} (whitespace : Bool) (found : List Nat)
    (hn : n ≤ t.length) (hfound : found.length ≤ 1) :
    ∃ x, responseLoop 0 n done.length whitespace found.length (done ++ (t ++ r)) found[0]? =
        some (done ++ (x ++ r), (found ++ wordStarts done.length whitespace (t.take n))[0]?,
          (found ++ wordStarts done.length whitespace (t.take n))[1]?) ∧ x.length = t.length ∧
      ∀ v, (found ++ wordStarts done.length whitespace (t.take n))[1]? = some v →
        ∃ j, v = done.length + j ∧ x = (t.take j).map blankSpace ++ t.drop j := by
  -- on the bytes left; `found` are the starts of words noted so far
  induction n generalizing done t whitespace found with
  | zero =>
    refine ⟨t, ?_, rfl, ?_⟩
    · rw [List.take_zero, wordStarts, List.append_nil]
      obtain _ | ⟨u, _ | _⟩ := found
      · rfl
      · rfl
      · simp at hfound
    · intro v hv
      rw [List.take_zero, wordStarts, List.append_nil, List.getElem?_eq_none hfound] at hv
      cases hv
  | succ n ih =>
    obtain ⟨c, t, rfl⟩ := List.exists_cons_of_length_pos (Nat.lt_of_lt_of_le (Nat.succ_pos n) hn)
    rw [List.length_cons] at hn
    have hget : (done ++ (c :: t ++ r))[0 + done.length]? = some c := getElem?_next [] done c (t ++ r)
    have hnext : ∀ d u, done ++ (d :: u ++ r) = (done ++ [d]) ++ (u ++ r) := fun d u => assoc_next [] done d u r
    -- what is left of the line is one byte longer than what the rest of the loop leaves
    have hgrow : ∀ {d W} {x : Bytes}, d = blankSpace c → x.length = t.length →
        (∀ v, W = some v → ∃ j, v = (done ++ [d]).length + j ∧ x = (t.take j).map blankSpace ++ t.drop j) →
        (d :: x).length = (c :: t).length ∧
          ∀ v, W = some v → ∃ j, v = done.length + j ∧
            d :: x = ((c :: t).take j).map blankSpace ++ (c :: t).drop j := by
      intro d W x hd hlen hsome
      refine ⟨by rw [List.length_cons, List.length_cons, hlen], ?_⟩
      intro v hv
      obtain ⟨j, hj, hx⟩ := hsome v hv
      refine ⟨j + 1, ?_, ?_⟩
      · rw [hj, length_next]
        omega
      · rw [hx, hd]
        rfl
    unfold responseLoop
    rw [hget, Option.bind_eq_bind, Option.bind_some, List.take_succ_cons, wordStarts]
    by_cases hc : c = space
    · have hput : putNul (done ++ (c :: t ++ r)) (0 + done.length) = some (done ++ (nul :: t ++ r)) :=
        putNul_next [] done c (t ++ r)
      obtain ⟨x, e, hlen, hsome⟩ := ih (done ++ [nul]) t true found (by omega) hfound
      rw [length_next] at e
      have hblank : nul = blankSpace c := (if_pos hc).symm
      rw [if_pos hc, if_pos hc, hput, Option.bind_eq_bind, Option.bind_some, hnext]
      refine ⟨nul :: x, ?_, ?_⟩
      · rw [e, hnext]
      · rw [← length_next done nul]
        exact hgrow hblank hlen hsome
    · have hblank : c = blankSpace c := (if_neg hc).symm
      rw [if_neg hc, if_neg hc]
      by_cases hw : whitespace = true
      · rw [if_pos hw, if_pos hw]
        obtain _ | ⟨u, _ | _⟩ := found
        · -- the second word
          obtain ⟨x, e, hlen, hsome⟩ := ih (done ++ [c]) t false [0 + done.length] (by omega) (by simp)
          rw [length_next] at e
          have hword : ([] : List Nat) ++ done.length :: wordStarts (done.length + 1) false (t.take n) =
              [0 + done.length] ++ wordStarts (done.length + 1) false (t.take n) := by
            rw [Nat.zero_add]
            rfl
          refine ⟨c :: x, ?_, ?_⟩
          · rw [hword, hnext c x, ← e, hnext c t]
            rfl
          · rw [hword, ← length_next done c]
            exact hgrow hblank hlen hsome
        · -- the third word ends the loop
          refine ⟨c :: t, ?_, rfl, ?_⟩
          · rw [Nat.zero_add]
            rfl
          · intro v hv
            refine ⟨0, ?_, rfl⟩
            exact (Option.some.inj hv).symm
        · simp at hfound
      · obtain ⟨x, e, hlen, hsome⟩ := ih (done ++ [c]) t false found (by omega) hfound
        rw [length_next] at e
        rw [if_neg hw, if_neg hw]
        refine ⟨c :: x, ?_, ?_⟩
        · rw [hnext c t, hnext c x]
          exact e
        · rw [← length_next done c]
          exact hgrow hblank hlen hsome

/-- A word that ends with a space. -/
theorem word_string {y : Bytes} (hnul : nul ∉ y) (hspace : space ∈ y) (z : Bytes) :
    cString (y.map blankSpace ++ z) = (y ++ z).takeWhile (· ≠ space) := by
  obtain ⟨y₁, y₂, rfl, hplain⟩ := List.eq_append_cons_of_mem hspace
  have hblank : y₁.map blankSpace = y₁ := by
    have hself : ∀ c ∈ y₁, blankSpace c = id c := by
      intro c hc
      have hne : c ≠ space := fun e => hplain (e ▸ hc)
      exact if_neg hne
    rw [List.map_congr_left hself, List.map_id]
  have hfront : (y₁ ++ space :: y₂).map blankSpace ++ z = y₁ ++ nul :: (y₂.map blankSpace ++ z) := by
    rw [List.map_append, hblank, List.append_assoc]
    rfl
  rw [hfront, cString_append_nul, List.append_assoc]
  have hcut : (y₁ ++ (space :: y₂ ++ z)).takeWhile (· ≠ space) = y₁ := takeWhile_ne_append hplain (y₂ ++ z)
  rw [hcut, cString_of_plain]
  exact fun h => hnul (List.mem_append_left _ h)

theorem responseLoop_line (s r : Bytes) {n : Nat} (hn : n ≤ s.length) :
    ∃ x, responseLoop 0 n 0 false 0 (s ++ nul :: r) none =
        some (x ++ nul :: r, (wordStarts 0 false (s.take n))[0]?, (wordStarts 0 false (s.take n))[1]?) ∧
      x.length = s.length ∧
      ∀ v, (wordStarts 0 false (s.take n))[1]? = some v → x = (s.take v).map blankSpace ++ s.drop v := by
  obtain ⟨x, e, hlen, hsome⟩ := responseLoop_spec [] s (nul :: r) false [] hn (Nat.zero_le 1)
  refine ⟨x, e, hlen, ?_⟩
  intro v hv
  obtain ⟨j, hj, hx⟩ := hsome v hv
  rw [List.length_nil, Nat.zero_add] at hj
  rw [hj]
  exact hx

/-- The second and the third word of a line, the third one with what is behind it. -/
theorem lineWords_strings {s : Bytes} (hs : nul ∉ s) {u v : Nat} (hu : (lineWords s)[0]? = some u)
    (hv : (lineWords s)[1]? = some v) :
    u ≤ s.length ∧ v ≤ s.length ∧
      cString (((s.take v).map blankSpace ++ s.drop v).drop u) = (s.drop u).takeWhile (· ≠ space) ∧
      cString (((s.take v).map blankSpace ++ s.drop v).drop v) = s.drop v := by
  rw [lineWords] at hu hv
  cases hw : wordStarts 0 false (s.take (scanned s)) with
  | nil =>
    rw [hw] at hu
    cases hu
  | cons u' rest =>
    rw [hw] at hu hv
    cases hu
    obtain ⟨a, c, b, ht, rfl, _, hrest⟩ := wordStarts_cons hw
    cases hw' : wordStarts (0 + a.length + 1) false b with
    | nil =>
      rw [hrest, hw'] at hv
      cases hv
    | cons v' rest' =>
      rw [hrest, hw'] at hv
      cases hv
      obtain ⟨a', c', b', rfl, rfl, hspace, _⟩ := wordStarts_cons hw'
      have hsplit : s = a ++ ((c :: a') ++ (c' :: b' ++ s.drop (scanned s))) := by
        conv_lhs => rw [← List.take_append_drop (scanned s) s, ht]
        simp
      generalize c' :: b' ++ s.drop (scanned s) = z at hsplit
      have hv' : 0 + a.length + 1 + a'.length = (a ++ (c :: a')).length := by
        rw [List.length_append, List.length_cons]
        omega
      have htake : s.take (0 + a.length + 1 + a'.length) = a ++ (c :: a') := by
        rw [hv', hsplit, ← List.append_assoc, List.take_left]
      have hdrop : s.drop (0 + a.length + 1 + a'.length) = z := by
        rw [hv', hsplit, ← List.append_assoc, List.drop_left]
      have hplain : nul ∉ c :: a' := by
        intro h
        rw [hsplit] at hs
        exact hs (List.mem_append_right _ (List.mem_append_left _ h))
      have hplainz : nul ∉ z := by
        intro h
        rw [hsplit] at hs
        exact hs (List.mem_append_right _ (List.mem_append_right _ h))
      have hmap : (a.map blankSpace).length = 0 + a.length := by rw [List.length_map, Nat.zero_add]
      have hmap' : ((a ++ (c :: a')).map blankSpace).length = 0 + a.length + 1 + a'.length := by
        rw [List.length_map, hv']
      have hlen := congrArg List.length hsplit
      simp only [List.length_append, List.length_cons] at hlen
      refine ⟨by omega, by omega, ?_, ?_⟩
      · rw [htake, hdrop, List.map_append, List.append_assoc, ← hmap, List.drop_left,
          word_string hplain (List.mem_cons_of_mem c (hspace rfl)), hmap, Nat.zero_add, hsplit, List.drop_left]
      · rw [htake, hdrop, ← hmap', List.drop_left, cString_of_plain hplainz]

/-- The message is stored with an error only. -/
def messageCalls (code message : Bytes) : List StoreCall :=
  if atoi code < 200 ∨ atoi code ≥ 300 then [.setvar (some varErrorMessage) (some message)] else []

/-- What follows from the words of the first line `s`. -/
def answerEffect (uri : Option Bytes) (s : Bytes) (respCode message : Option Nat) : LineEffect :=
  match respCode, message with
  | some u, some v =>
    let code := (s.drop u).takeWhile (· ≠ space)
    ⟨true, none, none, [.setvar (some varErrorCode) (some code)] ++ messageCalls code (s.drop v) ++
      [.setvar (some varUri) uri, .setvar (some varReqType) (some reqTypeNone)]⟩
  | _, _ => ⟨false, none, none, []⟩

/-- The first line of a response. -/
def responseEffect (uri : Option Bytes) (s : Bytes) : LineEffect :=
  answerEffect uri s (lineWords s)[0]? (lineWords s)[1]?

/-- The scan of `httpp_parse_response` finds the words, and leaves their strings in place. -/
theorem scanResponse_spec {s : Bytes} (hs : nul ∉ s) (r : Bytes) :
    ∃ x, scanResponse (s ++ nul :: r) 0 = some (x ++ nul :: r, (lineWords s)[0]?, (lineWords s)[1]?) ∧
      x.length = s.length ∧
      ∀ u v, (lineWords s)[0]? = some u → (lineWords s)[1]? = some v →
        stringAt (x ++ nul :: r) u = some ((s.drop u).takeWhile (· ≠ space)) ∧
        stringAt (x ++ nul :: r) v = some (s.drop v) := by
  have hstring := stringAt_zero s r
  rw [cString_of_plain hs] at hstring
  obtain ⟨x, e, hlen, hx⟩ := responseLoop_line s r (scanned_le s)
  refine ⟨x, ?_, hlen, ?_⟩
  · rw [scanResponse, Option.bind_eq_bind, bind_of_eq hstring, ← scanned, lineWords]
    exact e
  · intro u v hu hv
    obtain ⟨hule, hvle, hcode, hmessage⟩ := lineWords_strings hs hu hv
    rw [lineWords] at hv
    rw [← hx v hv] at hcode hmessage
    rw [← hlen] at hule hvle
    rw [stringAt_offset x r hule, stringAt_offset x r hvle, hcode, hmessage]
    exact ⟨rfl, rfl⟩

section
variable {p : Parser} {m : Maps}

/-- A variable is set, unless its value is NULL. -/
theorem Represents.setvar_any (R : Represents p m) (name : Bytes) (value : Option Bytes) :
    ∃ p', httppSetvar p (some name) value = some p' ∧
      Represents p' (StoreCall.apply m (.setvar (some name) value)) ∧
      p'.reqType = p.reqType ∧ p'.uri = p.uri := by
  cases value with
  | none => exact ⟨p, rfl, R, rfl, rfl⟩
  | some value => exact R.setvar name value

theorem Represents.storeMessage (R : Represents p m) (code message : Bytes) :
    ∃ p', storeMessage p code message = some p' ∧
      Represents p' ((messageCalls code message).foldl StoreCall.apply m) ∧
      p'.reqType = p.reqType ∧ p'.uri = p.uri := by
  rw [messageCalls, Httpp.storeMessage]
  by_cases hbad : atoi code < 200 ∨ atoi code ≥ 300
  · rw [if_pos hbad, if_pos hbad]
    exact R.setvar_any varErrorMessage (some message)
  · rw [if_neg hbad, if_neg hbad]
    exact ⟨p, rfl, R, rfl, rfl⟩

/-- `httpp_parse_response` behind its loop, on a buffer whose first line has become `x`. -/
theorem answerEffect_spec (R : Represents p m) {s x r w y : Bytes} (hr : nul :: r = w ++ y) (uri : Option Bytes)
    {respCode message : Option Nat}
    (hstrings : ∀ u v, respCode = some u → message = some v →
      stringAt (x ++ nul :: r) u = some ((s.drop u).takeWhile (· ≠ space)) ∧
      stringAt (x ++ nul :: r) v = some (s.drop v))
    {segs : List Bytes} {line : Lines} {lines : Nat} (hlaid : Laid segs y) (hlines : lines - 1 = segs.length)
    (hline : ∀ k < segs.length, line (1 + k) = (starts (x ++ w).length segs)[k]?) :
    HasEffect (takeAnswer p (x ++ nul :: r) line lines uri respCode message) p m
      (answerEffect uri s respCode message) (segs.flatMap fun seg => headerCalls (lineText seg)) := by
  cases respCode with
  | none => exact hasEffect_rejected rfl R rfl rfl _
  | some u =>
    cases message with
    | none => exact hasEffect_rejected rfl R rfl rfl _
    | some v =>
      obtain ⟨hcode, hmessage⟩ := hstrings u v rfl rfl
      rw [takeAnswer, answerEffect, Option.bind_eq_bind, bind_of_eq hcode, Option.bind_eq_bind,
        bind_of_eq hmessage]
      generalize (s.drop u).takeWhile (· ≠ space) = code
      generalize s.drop v = message
      obtain ⟨p₁, e₁, R₁, hreq₁, huri₁⟩ := R.setvar_any varErrorCode (some code)
      obtain ⟨p₂, e₂, R₂, hreq₂, huri₂⟩ := R₁.storeMessage code message
      obtain ⟨p₃, e₃, R₃, hreq₃, huri₃⟩ := R₂.setvar_any varUri uri
      obtain ⟨p₄, e₄, R₄, hreq₄, huri₄⟩ := R₃.setvar_any varReqType (some reqTypeNone)
      obtain ⟨p₅, e₅, R₅, hreq₅, huri₅⟩ := parseHeaders_spec R₄ (x ++ w) hlaid hline
      rw [← hlines, List.append_assoc, ← hr] at e₅
      refine ⟨p₅, ?_, ?_, ?_, ?_⟩
      · rw [bind_of_eq e₁, bind_of_eq e₂, bind_of_eq e₃, bind_of_eq e₄, bind_of_eq e₅, if_pos rfl]
      · generalize messageCalls code message = calls at R₅ ⊢
        rw [LineEffect.all, if_pos rfl, List.foldl_append, List.foldl_append, List.foldl_append]
        exact R₅
      · calc p₅.reqType = p₄.reqType := hreq₅
          _ = p₃.reqType := hreq₄
          _ = p₂.reqType := hreq₃
          _ = p₁.reqType := hreq₂
          _ = p.reqType := hreq₁
      · calc p₅.uri = p₄.uri := huri₅
          _ = p₃.uri := huri₄
          _ = p₂.uri := huri₃
          _ = p₁.uri := huri₂
          _ = p.uri := huri₁

/-- `httpp_parse_response` on any bytes. -/
theorem httppParseResponse_spec (R : Represents p m) (text : Bytes) (uri : Option Bytes) :
    HasEffect (httppParseResponse p (some text) uri) p m (responseEffect uri (firstLine text))
      (headersCalls text) := by
  obtain ⟨line, y, esplit, hfirst, hlaid, hline⟩ := splitHeaders_spec text
  obtain ⟨w, r, hbuffer, hr, hlen⟩ := firstLine_split text y
  have hcount : (splitLines maxHeaders text).length - 1 = (headerSegments text).length := by
    rw [headerSegments, List.length_tail]
  obtain ⟨x, escan, hxlen, hstrings⟩ := scanResponse_spec (firstLine_plain text) r
  rw [hbuffer] at esplit
  rw [httppParseResponse, Option.bind_eq_bind, bind_of_eq esplit]
  dsimp only
  rw [Option.bind_eq_bind, bind_of_eq hfirst, Option.bind_eq_bind, bind_of_eq escan, responseEffect]
  refine answerEffect_spec R hr uri hstrings hlaid hcount ?_
  rw [List.length_append, hxlen, hlen]
  exact hline

end

end IcecastCommon.Httpp
