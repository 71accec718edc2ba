import IcecastCommon.Httpp.Variables

/- Headers against the variables with two leading underscores. `httpp_get_any_var` and
   `httpp_get_any_key` keep these names out of the namespace of the headers, but
   `parse_headers` stores a header under any name, behind what the first line sets. -/
namespace IcecastCommon.Httpp
open Avl Library
open Encoding (Bytes nul lf cString cString_of_plain nul_notMem_cString)

/-- Two messages that are both accepted leave the same internal variables. -/
def Agree (kind : MessageKind) (defaults : VarList) (a b : Bytes) : Prop :=
  ∃ p q ra rb, parseNew kind defaults a = some (ra, p) ∧ parseNew kind defaults b = some (rb, q) ∧
    (ra = 1 → rb = 1 → ∀ name, Internal (cString name) →
      httppGetvar p (some name) = httppGetvar q (some name))

/-- The value of a variable behind an accepted message. -/
def variableAfter (kind : MessageKind) (defaults : VarList) (text name : Bytes) : Option Bytes :=
  (lastHeader name (headersOf text)).or (lineVar kind defaults (firstLine text) name)

theorem returned_iff (accepted : Bool) : (if accepted then 1 else 0 : Int) = 1 ↔ accepted = true := by
  cases accepted <;> simp

theorem accepted_of_one {accepted : Bool} (h : (if accepted then 1 else 0 : Int) = 1) : accepted = true :=
  (returned_iff accepted).mp h

theorem returned_cases (accepted : Bool) :
    (if accepted then 1 else 0 : Int) = 1 ∨ (if accepted then 1 else 0 : Int) = 0 := by
  cases accepted <;> simp

theorem agree_iff {kind : MessageKind} {defaults : VarList} {a b : Bytes} : Agree kind defaults a b ↔
    ((lineEffect kind (firstLine a)).accepted = true → (lineEffect kind (firstLine b)).accepted = true →
      ∀ name, Internal (cString name) →
        variableAfter kind defaults a (cString name) = variableAfter kind defaults b (cString name)) := by
  obtain ⟨p, ep, _, hp⟩ := message_variables kind defaults a
  obtain ⟨q, eq, _, hq⟩ := message_variables kind defaults b
  constructor
  · intro h ha hb name hname
    obtain ⟨p', q', ra, rb, ep', eq', hagree⟩ := h
    obtain ⟨rfl, rfl⟩ := Prod.mk.inj (Option.some.inj (ep.symm.trans ep'))
    obtain ⟨rfl, rfl⟩ := Prod.mk.inj (Option.some.inj (eq.symm.trans eq'))
    have hvalue := hagree (if_pos ha) (if_pos hb) name hname
    rw [hp ha, hq hb] at hvalue
    exact Option.some.inj hvalue
  · intro h
    refine ⟨p, q, _, _, ep, eq, ?_⟩
    intro hra hrb name hname
    have ha := accepted_of_one hra
    have hb := accepted_of_one hrb
    rw [hp ha, hq hb]
    exact congrArg some (h ha hb name hname)

/-- No header has an internal name. -/
def NoInternalHeaders (text : Bytes) : Prop := ∀ header ∈ headersOf text, ¬ Internal header.1

/-- The headers of an accepted message that have an internal name set it, the last time, to
what it is set to anyway. -/
def Repeats (kind : MessageKind) (defaults : VarList) (text : Bytes) : Prop :=
  (lineEffect kind (firstLine text)).accepted = true → ∀ name value, Internal name →
    lastHeader name (headersOf text) = some value → lineVar kind defaults (firstLine text) name = some value

theorem lastHeader_mem {name value : Bytes} {headers : List (Bytes × Bytes)} (h : lastHeader name headers = some value) :
    (name, value) ∈ headers := by
  obtain ⟨header, hfind, rfl⟩ := Option.map_eq_some_iff.mp h
  have hname : header.1 = name := by simpa using List.find?_some hfind
  rw [← hname]
  exact List.mem_reverse.mp (List.mem_of_find?_eq_some hfind)

theorem NoInternalHeaders.lastHeader {text name : Bytes} (h : NoInternalHeaders text) (hname : Internal name) :
    lastHeader name (headersOf text) = none := by
  cases hlast : Httpp.lastHeader name (headersOf text) with
  | none => rfl
  | some value => exact absurd hname (h _ (lastHeader_mem hlast))

theorem NoInternalHeaders.repeats {text : Bytes} (h : NoInternalHeaders text) (kind : MessageKind)
    (defaults : VarList) : Repeats kind defaults text := by
  intro _ name value hname hlast
  rw [h.lastHeader hname] at hlast
  cases hlast

/-- Then an internal variable is what the first line makes of it. -/
theorem Repeats.variableAfter {kind : MessageKind} {defaults : VarList} {text : Bytes}
    (h : Repeats kind defaults text) (haccepted : (lineEffect kind (firstLine text)).accepted = true) {name : Bytes}
    (hname : Internal name) :
    variableAfter kind defaults text name = lineVar kind defaults (firstLine text) name := by
  rw [Httpp.variableAfter]
  cases hlast : lastHeader name (headersOf text) with
  | none => rfl
  | some value =>
    rw [h haccepted name value hname hlast]
    rfl

theorem Repeats.agree {kind : MessageKind} {defaults : VarList} {a b : Bytes} (ha : Repeats kind defaults a)
    (hb : Repeats kind defaults b) (hline : firstLine a = firstLine b) : Agree kind defaults a b := by
  rw [agree_iff]
  intro haccepted haccepted' name hname
  rw [ha.variableAfter haccepted hname, hb.variableAfter haccepted' hname, hline]

/-! The message that is only a first line. -/

theorem splitLines_plain {text : Bytes} (h : lf ∉ text) (limit : Nat) : splitLines limit text = [] := by
  induction text with
  | nil => rfl
  | cons c text ih =>
    have hc : c ≠ lf := fun e => h (e ▸ List.mem_cons_self)
    rw [splitLines_other hc, ih fun hm => h (List.mem_cons_of_mem c hm)]
    rfl

theorem firstLine_idem (text : Bytes) : firstLine (firstLine text) = firstLine text := by
  rw [firstLine, firstLine, List.takeWhile_takeWhile]
  simp

theorem headersOf_firstLine (text : Bytes) : headersOf (firstLine text) = [] := by
  have hlf : lf ∉ firstLine text := by
    intro h
    have := List.mem_takeWhile_imp h
    simp at this
  rw [headersOf, headerSegments, splitLines_plain hlf]
  rfl

/-- A message that agrees with its first line alone has no header of its own among the
internal variables. -/
theorem Agree.repeats {kind : MessageKind} {defaults : VarList} {text : Bytes}
    (h : Agree kind defaults text (firstLine text)) : Repeats kind defaults text := by
  intro haccepted name value hname hlast
  have hplain : nul ∉ name := (headersOf_plain _ (lastHeader_mem hlast)).1
  rw [agree_iff, firstLine_idem] at h
  have hvalue := h haccepted haccepted name (by rwa [cString_of_plain hplain])
  rw [cString_of_plain hplain, variableAfter, variableAfter, hlast, headersOf_firstLine, firstLine_idem] at hvalue
  exact hvalue.symm

/-- The internal variables are those of the first line exactly when no header says otherwise. -/
theorem internal_variables (kind : MessageKind) (defaults : VarList) :
    (∀ a b, firstLine a = firstLine b → Repeats kind defaults a → Repeats kind defaults b →
      Agree kind defaults a b) ∧
    ∀ a, (∀ b, firstLine b = firstLine a → NoInternalHeaders b → Agree kind defaults a b) ↔
      Repeats kind defaults a := by
  constructor
  · intro a b hline ha hb
    exact ha.agree hb hline
  · intro a
    constructor
    · intro h
      apply Agree.repeats
      apply h _ (firstLine_idem a)
      intro header hm
      rw [headersOf_firstLine] at hm
      cases hm
    · intro ha b hline hb
      exact ha.agree (hb.repeats kind defaults) hline.symm

/-- `GET / HTTP/1.0` and the header `a: b` -/
def plainRequest : Bytes :=
  [71, 69, 84, 32, 47, 32, 72, 84, 84, 80, 47, 49, 46, 48, 10, 97, 58, 32, 98, 10]

/-- The same first line with the header `__uri: /admin` -/
def spoofedRequest : Bytes :=
  [71, 69, 84, 32, 47, 32, 72, 84, 84, 80, 47, 49, 46, 48, 10, 95, 95, 117, 114, 105, 58, 32, 47,
   97, 100, 109, 105, 110, 10]

/-- The same first line with the headers `a: b` and `__uri: /`. -/
def repeatingRequest : Bytes :=
  [71, 69, 84, 32, 47, 32, 72, 84, 84, 80, 47, 49, 46, 48, 10, 97, 58, 32, 98, 10, 95, 95, 117, 114, 105, 58, 32, 47,
   10]

theorem internal_variables_repeated : Agree .request [] repeatingRequest plainRequest := by
  have hline : firstLine repeatingRequest = firstLine plainRequest := by decide +kernel
  have hplain : NoInternalHeaders plainRequest := by
    have h : headersOf plainRequest = [([97], [98])] := by decide +kernel
    intro header hm
    rw [h, List.mem_singleton] at hm
    rw [hm]
    decide
  have hrepeats : Repeats .request [] repeatingRequest := by
    have h : headersOf repeatingRequest = [([97], [98]), (varUri, [47])] := by decide +kernel
    have huri : lineVar .request [] (firstLine repeatingRequest) varUri = some [47] := by decide +kernel
    intro _ name value hname hlast
    have hmem := lastHeader_mem hlast
    rw [h] at hmem
    rcases List.mem_cons.mp hmem with hmem | hmem
    · rw [(Prod.mk.inj hmem).1] at hname
      exact absurd hname (by decide)
    · obtain ⟨rfl, rfl⟩ := Prod.mk.inj (List.mem_singleton.mp hmem)
      exact huri
  exact (internal_variables .request []).1 _ _ hline hrepeats (hplain.repeats _ _)

/-- A client chooses the URI that the server sees by a header. -/
theorem header_sets_uri : firstLine plainRequest = firstLine spoofedRequest ∧
    ¬ Agree .request [] plainRequest spoofedRequest := by
  have hline : firstLine plainRequest = firstLine spoofedRequest := by decide +kernel
  have haccepted : (lineEffect .request (firstLine spoofedRequest)).accepted = true := by decide +kernel
  have hheader : lastHeader varUri (headersOf spoofedRequest) = some [47, 97, 100, 109, 105, 110] := by
    decide +kernel
  have hnone : lastHeader varUri (headersOf plainRequest) = none := by decide +kernel
  have huri : lineVar .request [] (firstLine spoofedRequest) varUri = some [47] := by decide +kernel
  have hname : cString varUri = varUri := by decide
  refine ⟨hline, ?_⟩
  intro h
  rw [agree_iff, hline] at h
  have hvalue := h haccepted haccepted varUri (by decide)
  rw [hname, variableAfter, variableAfter, hline, hheader, hnone, huri] at hvalue
  exact absurd hvalue (by decide)

end IcecastCommon.Httpp
