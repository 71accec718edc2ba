import IcecastCommon.Httpp.Reachable

/- The variables of a new parser after one message. A variable is that of the last header of
   its name, or what the first line sets. -/
namespace IcecastCommon.Httpp
open Avl Library
open Encoding (Bytes nul cString cString_of_plain nul_notMem_cString)

/-- The name begins with two underscores. -/
def Internal (name : Bytes) : Prop := name.take 2 = [underscore, underscore]

instance (name : Bytes) : Decidable (Internal name) := by
  unfold Internal
  infer_instance

/-! Messages. -/

/-- What a message is parsed as. -/
inductive MessageKind where
  | request
  | response (uri : Option Bytes)

def parseMessage : MessageKind → Parser → Bytes → Option (Int × Parser)
  | .request, p, text => httppParse p (some text)
  | .response uri, p, text => httppParseResponse p (some text) uri

/-- What the first line does. -/
def lineEffect : MessageKind → Bytes → LineEffect
  | .request => requestEffect
  | .response uri => responseEffect uri

theorem parseMessage_spec {p : Parser} {m : Maps} (R : Represents p m) (kind : MessageKind) (text : Bytes) :
    HasEffect (parseMessage kind p text) p m (lineEffect kind (firstLine text)) (headersCalls text) := by
  cases kind with
  | request => exact httppParse_spec R text
  | response uri => exact httppParseResponse_spec R text uri

/-! Headers. -/

/-- The headers of a message, with the names in lower case. -/
def headersOf (text : Bytes) : List (Bytes × Bytes) :=
  ((headerSegments text).filterMap fun seg => headerOf (scanned (lineText seg)) (lineText seg)).map
    fun header => (header.1.map toLower, header.2)

/-- The value of the last header of a name. -/
def lastHeader (name : Bytes) (headers : List (Bytes × Bytes)) : Option Bytes :=
  (headers.reverse.find? fun header => header.1 = name).map Prod.snd

/-- A header as a call. -/
def setHeader (header : Bytes × Bytes) : StoreCall := .setvar (some header.1) (some header.2)

theorem lastHeader_concat (name : Bytes) (headers : List (Bytes × Bytes)) (header : Bytes × Bytes) :
    lastHeader name (headers ++ [header]) = if header.1 = name then some header.2 else lastHeader name headers := by
  rw [lastHeader, List.reverse_concat, List.find?_cons, lastHeader]
  by_cases heq : header.1 = name
  · rw [if_pos heq, decide_eq_true heq]
    rfl
  · rw [if_neg heq, decide_eq_false heq]

theorem headersCalls_eq (text : Bytes) : headersCalls text = (headersOf text).map setHeader := by
  rw [headersCalls, headersOf, List.map_map, List.filterMap_eq_flatMap_toList, List.map_flatMap]
  rfl

theorem valueAfter_plain {n : Nat} {t v : Bytes} (ht : nul ∉ t) (h : valueAfter n t = some v) : nul ∉ v := by
  rw [valueAfter] at h
  intro hm
  by_cases hrest : ((t.take n).dropWhile (· = colon)).dropWhile (· = space) = []
  · rw [if_pos hrest] at h
    cases h
  · rw [if_neg hrest] at h
    rw [← Option.some.inj h, List.mem_append] at hm
    rcases hm with hm | hm
    · exact ht (List.mem_of_mem_take ((List.dropWhile_sublist _).subset ((List.dropWhile_sublist _).subset hm)))
    · exact ht (List.mem_of_mem_drop hm)

theorem headerOf_value_plain {n : Nat} {s name v : Bytes} (hs : nul ∉ s) (h : headerOf n s = some (name, v)) :
    nul ∉ v := by
  induction n generalizing s name with
  | zero => cases s <;> cases h
  | succ n ih =>
    cases s with
    | nil => cases h
    | cons c s =>
      have hrest : nul ∉ s := fun hm => hs (List.mem_cons_of_mem c hm)
      rw [headerOf] at h
      by_cases hc : c = colon
      · rw [if_pos hc] at h
        obtain ⟨v', hv', hpair⟩ := Option.map_eq_some_iff.mp h
        cases hpair
        exact valueAfter_plain hrest hv'
      · rw [if_neg hc] at h
        obtain ⟨header, hheader, hpair⟩ := Option.map_eq_some_iff.mp h
        cases hpair
        exact ih hrest hheader

/-- Names and values of headers are strings. -/
theorem headersOf_plain {text : Bytes} : ∀ header ∈ headersOf text, nul ∉ header.1 ∧ nul ∉ header.2 := by
  intro header hm
  obtain ⟨⟨name, v⟩, hmem, rfl⟩ := List.mem_map.mp hm
  obtain ⟨seg, _, h⟩ := List.mem_filterMap.mp hmem
  have hs : nul ∉ lineText seg := nul_notMem_cString _
  exact ⟨nul_notMem_lower (headerOf_plain hs h), headerOf_value_plain hs h⟩

/-! What a history of calls leaves in the variables. -/

theorem foldl_mapsOf (calls before : List StoreCall) :
    calls.foldl StoreCall.apply (mapsOf before) = mapsOf (calls.reverse ++ before) := by
  induction calls generalizing before with
  | nil => rfl
  | cons c calls ih =>
    rw [List.foldl_cons, ← mapsOf_cons, ih, List.reverse_cons, List.append_assoc]
    rfl

/-- Headers on top of what was set before. -/
theorem lastVar_headers {headers : List (Bytes × Bytes)} (h : ∀ header ∈ headers, nul ∉ header.1 ∧ nul ∉ header.2)
    (name : Bytes) (before : List StoreCall) :
    lastVar name ((headers.map setHeader).reverse ++ before) =
      (lastHeader name headers).or (lastVar name before) := by
  -- from the last header, which is the one that counts
  induction headers using List.reverseRecOn with
  | nil => rfl
  | append_singleton headers header ih =>
    obtain ⟨hname, hvalue⟩ := h header (by simp)
    have hrest := ih fun other hm => h other (List.mem_append_left _ hm)
    have hcalls : ((headers ++ [header]).map setHeader).reverse = setHeader header :: (headers.map setHeader).reverse := by
      rw [← List.map_reverse, List.reverse_concat, List.map_cons, List.map_reverse]
    rw [hcalls, List.cons_append, setHeader, lastVar, hrest, cString_of_plain hname, cString_of_plain hvalue,
      lastHeader_concat]
    by_cases heq : header.1 = name
    · rw [if_pos heq, if_pos heq]
      rfl
    · rw [if_neg heq, if_neg heq]

/-- A new parser with its defaults. -/
def newParser (defaults : VarList) : Option Parser := httppCreateParser.bind fun p => httppInitialize p defaults

/-- A message on a new parser. -/
def parseNew (kind : MessageKind) (defaults : VarList) (text : Bytes) : Option (Int × Parser) :=
  (newParser defaults).bind fun p => parseMessage kind p text

/-- What the defaults and the first line give a variable. -/
def lineVar (kind : MessageKind) (defaults : VarList) (line name : Bytes) : Option Bytes :=
  lastVar name (defaultCalls defaults ++ (lineEffect kind line).calls).reverse

/-- The variables after a message on a new parser. -/
theorem message_variables (kind : MessageKind) (defaults : VarList) (text : Bytes) :
    ∃ p, parseNew kind defaults text = some (if (lineEffect kind (firstLine text)).accepted then 1 else 0, p) ∧
      p.reqType = (lineEffect kind (firstLine text)).reqType.getD .none ∧
      ((lineEffect kind (firstLine text)).accepted = true → ∀ name,
        httppGetvar p (some name) = some ((lastHeader (cString name) (headersOf text)).or
          (lineVar kind defaults (firstLine text) (cString name)))) := by
  obtain ⟨p₀, e₀, R₀, hreq₀, _⟩ := represents_new
  obtain ⟨p₁, e₁, R₁, hreq₁, _⟩ := R₀.defaults defaults
  obtain ⟨p, e, R, hreq, _⟩ := parseMessage_spec R₁ kind text
  have hempty : Maps.empty = mapsOf [] := by
    funext s name
    cases s <;> rfl
  have hnew : newParser defaults = some p₁ := by rw [newParser, e₀, Option.bind_some, e₁]
  refine ⟨p, by rw [parseNew, hnew, Option.bind_some, e], by rw [hreq, hreq₁, hreq₀], ?_⟩
  intro haccepted name
  rw [R.getvar name, hempty, foldl_mapsOf, foldl_mapsOf, List.append_nil, LineEffect.all, if_pos haccepted,
    headersCalls_eq, List.reverse_append, List.append_assoc, ← List.reverse_append, lineVar,
    ← lastVar_headers headersOf_plain]
  show some (lastVar (cString name) _).toList.head? = _
  rw [Option.head?_toList]

end IcecastCommon.Httpp
