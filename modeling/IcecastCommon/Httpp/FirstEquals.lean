import IcecastCommon.Httpp.Stores

/- Where a form field is cut. The loop of `parse_query` sets `mid` at every `'='` of an
   element, so `parse_query_element` cuts at the last one. What is stored for a field is
   then that of a cut at the first `'='` only where there is one `'='`, or where a NUL hides
   the rest of the key. -/
namespace IcecastCommon.Httpp
open Avl Library
open Encoding (Bytes nul cString)

/-- A form of the elements `es`. -/
def queryText (es : List Bytes) : Bytes := [ampersand].intercalate es

/-- A string with a `'='` is cut at its last one. -/
theorem exists_last {s : Bytes} (h : equalsSign ∈ s) :
    ∃ front value, s = front ++ equalsSign :: value ∧ equalsSign ∉ value := by
  obtain ⟨as, bs, hs, has⟩ := List.eq_append_cons_of_mem (List.mem_reverse.mpr h)
  refine ⟨bs.reverse, as.reverse, ?_, fun hmem => has (List.mem_reverse.mp hmem)⟩
  rw [← List.reverse_reverse s, hs]
  simp

/-- What follows a key is hidden exactly by a NUL in it. -/
theorem cString_append_eq {s : Bytes} {c : UInt8} (hc : c ≠ nul) (rest : Bytes) :
    cString (s ++ c :: rest) = cString s ↔ nul ∈ s := by
  constructor
  · intro h
    by_contra hs
    have hlong : cString (s ++ c :: rest) = s ++ cString (c :: rest) := by
      apply List.takeWhile_append_of_pos
      intro x hx
      simpa using fun hxn : x = nul => hs (hxn ▸ hx)
    have hcons : cString (c :: rest) = c :: cString rest := List.takeWhile_cons_of_pos (by simpa using hc)
    rw [hlong, Encoding.cString_of_plain hs, hcons] at h
    have hlen := congrArg List.length h
    rw [List.length_append, List.length_cons] at hlen
    omega
  · intro hs
    obtain ⟨as, bs, rfl⟩ := List.append_of_mem hs
    rw [List.append_assoc, List.cons_append, Encoding.cString_append_nul, Encoding.cString_append_nul]

variable {mem mem' : VarHeap} {tree tree' : Tree} {vs vs' : List VarPtr} {m m' : Entries}

/-- A tree holds one map. -/
theorem Holds.unique (H : Holds mem tree vs m) (H' : Holds mem tree vs' m') : m = m' := by
  have hread : vs.map (fun v => (v.name, m v.name)) = vs'.map fun v => (v.name, m' v.name) :=
    Option.some.inj (H.readEntries.symm.trans H'.readEntries)
  funext name
  by_cases hname : m name = []
  · by_contra hne
    rw [hname] at hne
    obtain ⟨v', hv', rfl⟩ := H'.only name (Ne.symm hne)
    have hmem := List.mem_map_of_mem (f := fun v => (v.name, m' v.name)) hv'
    rw [← hread] at hmem
    obtain ⟨v, _, hv⟩ := List.mem_map.mp hmem
    obtain ⟨hn, hvalues⟩ := Prod.mk.inj hv
    rw [hn] at hvalues
    exact hne (hname.symm.trans hvalues)
  · obtain ⟨v, hv, rfl⟩ := H.only name hname
    have hmem := List.mem_map_of_mem (f := fun v => (v.name, m v.name)) hv
    rw [hread] at hmem
    obtain ⟨v', _, hv'⟩ := List.mem_map.mp hmem
    obtain ⟨hn, hvalues⟩ := Prod.mk.inj hv'
    rw [← hn] at hvalues ⊢
    exact hvalues.symm

/-- The entry an element gives between the others can be read off the map. -/
theorem addFields_between {xs ys : List (Bytes × Bytes)} {f : Option (Bytes × Bytes)} {g : Bytes × Bytes}
    (h : addFields m (xs ++ f.toList ++ ys) = addFields m (xs ++ g :: ys)) : f = some g := by
  have hname := congrFun h g.1
  have hcut : ((f.toList.filter fun e => e.1 = g.1).map Prod.snd) = [g.2] := by
    simp only [addFields_apply, List.filter_append, List.map_append, List.filter_cons, decide_true, if_true,
      List.map_cons] at hname
    have hname := List.append_cancel_left hname
    rw [List.append_assoc] at hname
    have hname := List.append_cancel_left hname
    exact List.append_cancel_right (by simpa using hname)
  cases f with
  | none => cases hcut
  | some f =>
    by_cases hf : f.1 = g.1
    · simp only [Option.toList_some, List.filter_cons, hf, decide_true, if_true, List.filter_nil,
        List.map_cons, List.map_nil] at hcut
      exact congrArg some (Prod.ext hf (List.singleton_inj.mp hcut))
    · simp [hf] at hcut

/-- An element of a form, cut at its first `'='`. -/
structure Element where
  key : Bytes
  rest : Bytes
  /-- What the bytes after the first `'='` decode to. -/
  value : Bytes
  key_ne : key ≠ []
  key_ampersand : ampersand ∉ key
  key_equals : equalsSign ∉ key
  rest_ne : rest ≠ []
  rest_ampersand : ampersand ∉ rest
  decoded : decode rest = some value

/-- How the element is written. -/
def Element.text (e : Element) : Bytes := e.key ++ equalsSign :: e.rest

/-- What is to be stored for it. -/
def Element.entry (e : Element) : Bytes × Bytes := (cString e.key, cString e.value)

/-- Where `parse_query_element` gives what a cut at the first `'='` would. -/
def Element.CutFirst (e : Element) : Prop :=
  equalsSign ∉ e.rest ∨ nul ∈ e.key ∧ ∃ front value w, e.rest = front ++ equalsSign :: value ∧
    equalsSign ∉ value ∧ value ≠ [] ∧ decode value = some w ∧ cString w = cString e.value

theorem Element.text_ampersand (e : Element) : ampersand ∉ e.text := by
  have hsign : ampersand ≠ equalsSign := by decide
  rw [Element.text, List.mem_append, List.mem_cons]
  rintro (h | h | h)
  · exact e.key_ampersand h
  · exact hsign h
  · exact e.rest_ampersand h

/-- When an element gives the key before its first `'='` with the decoded rest. -/
theorem Element.field_eq (e : Element) : field e.text = some e.entry ↔ e.CutFirst := by
  obtain ⟨key, rest, v, hkey, -, -, hrest, -, hv⟩ := e
  show field (key ++ equalsSign :: rest) = some (cString key, cString v) ↔ equalsSign ∉ rest ∨ _
  by_cases heq : equalsSign ∈ rest
  · obtain ⟨front, value, hsplit, hvalue⟩ := exists_last heq
    have hcut : splitLast (key ++ equalsSign :: rest) = some (key ++ equalsSign :: front, value) := by
      rw [hsplit]
      calc splitLast (key ++ equalsSign :: (front ++ equalsSign :: value))
          = splitLast ((key ++ equalsSign :: front) ++ equalsSign :: value) := by simp
        _ = some (key ++ equalsSign :: front, value) := splitLast_append hvalue
    have hname : cString (key ++ equalsSign :: front) = cString key ↔ nul ∈ key :=
      cString_append_eq (by decide) front
    have hfield : field (key ++ equalsSign :: rest) = if value = [] then none
        else (decode value).map fun w => (cString (key ++ equalsSign :: front), cString w) := by
      rw [field, hcut]
      simp
    rw [hfield]
    constructor
    · intro h
      right
      by_cases hempty : value = []
      · rw [if_pos hempty] at h
        cases h
      · rw [if_neg hempty] at h
        obtain ⟨w, hw, hpair⟩ := Option.map_eq_some_iff.mp h
        obtain ⟨hkeys, hvalues⟩ := Prod.mk.inj hpair
        exact ⟨hname.mp hkeys, front, value, w, hsplit, hvalue, hempty, hw, hvalues⟩
    · rintro (h | ⟨hnul, front', value', w, hsplit', hvalue', hempty, hw, hvalues⟩)
      · exact absurd heq h
      · -- the last `'='` of the rest is one place
        have hsame : some (front, value) = some (front', value') := by
          rw [← splitLast_append hvalue, ← splitLast_append hvalue', ← hsplit, ← hsplit']
        cases hsame
        rw [if_neg hempty, hw, Option.map_some, hname.mpr hnul, hvalues]
  · have hfield : field (key ++ equalsSign :: rest) = some (cString key, cString v) := by
      rw [field, splitLast_append heq]
      simp [hkey, hrest, hv]
    exact ⟨fun _ => Or.inl heq, fun _ => hfield⟩

/-- An element is stored under the key before its first `'='`, with what follows decoded,
exactly where the form does not begin with a NUL and the first `'='` is the only one of the
element, or a NUL in the key hides the cut and both values read alike. -/
theorem first_equals (H : Holds mem tree vs m) (e : Element) {xs ys : List Bytes} (tail : Bytes)
    (hxs : ∀ x ∈ xs, ampersand ∉ x) (hys : ∀ y ∈ ys, ampersand ∉ y) {query : Bytes}
    (hquery : query = queryText (xs ++ e.text :: ys)) :
    (∃ mem' tree' vs', parseQuery mem tree (some (query ++ tail)) query.length = some (mem', tree') ∧
      Holds mem' tree' vs' (addFields m (xs.filterMap field ++ e.entry :: ys.filterMap field))) ↔
    query.head? ≠ some nul ∧ e.CutFirst := by
  have hplain : ∀ x ∈ xs ++ e.text :: ys, ampersand ∉ x := by
    intro x hx
    rcases List.mem_append.mp hx with hx | hx
    · exact hxs x hx
    · rcases List.mem_cons.mp hx with rfl | hx
      · exact e.text_ampersand
      · exact hys x hx
  have hfields : fields query = xs.filterMap field ++ (field e.text).toList ++ ys.filterMap field := by
    rw [hquery, queryText, fields_intercalate (by simp) hplain, List.filterMap_append, List.filterMap_cons]
    cases field e.text <;> simp
  have hne : query ≠ [] := by
    rw [hquery]
    intro hnil
    have hparts := List.splitOn_intercalate _ hplain (by simp)
    rw [show [ampersand].intercalate (xs ++ e.text :: ys) = [] from hnil] at hparts
    have hmem : e.text ∈ [([] : Bytes)] := by
      rw [show [[]] = xs ++ e.text :: ys from hparts]
      simp
    simp [Element.text] at hmem
  have hlen : query.length ≤ (query ++ tail).length := by simp
  have hhead : (query ++ tail).head? = query.head? := by
    obtain ⟨c, q, rfl⟩ := List.exists_cons_of_ne_nil hne
    rfl
  obtain ⟨mem₁, tree₁, vs₁, hparse, H₁, _⟩ := parseQuery_spec H hlen (by simp [hne])
  rw [List.take_left, hhead] at H₁
  rw [hparse, ← e.field_eq]
  constructor
  · rintro ⟨mem', tree', vs', hsame, H'⟩
    cases hsame
    have hmaps := H₁.unique H'
    by_cases hnul : query.head? = some nul
    · -- nothing is stored
      have hname := congrFun hmaps e.entry.1
      rw [if_pos hnul, addFields_apply, addFields_apply] at hname
      have hlength := congrArg List.length hname
      simp at hlength
    · rw [if_neg hnul, hfields] at hmaps
      exact ⟨hnul, addFields_between hmaps⟩
  · rintro ⟨hnul, hfield⟩
    refine ⟨mem₁, tree₁, vs₁, rfl, ?_⟩
    rw [if_neg hnul, hfields, hfield] at H₁
    simpa using H₁

theorem keyA_ne : ([97] : Bytes) ≠ [] := by decide

theorem keyA_ampersand : ampersand ∉ ([97] : Bytes) := by decide

theorem keyA_equals : equalsSign ∉ ([97] : Bytes) := by decide

/-- The element `a=b=c`, whose key is `a`. -/
def twoSigns : Element where
  key := [97]
  rest := [98, equalsSign, 99]
  value := [98, equalsSign, 99]
  key_ne := keyA_ne
  key_ampersand := keyA_ampersand
  key_equals := keyA_equals
  rest_ne := by decide
  rest_ampersand := by decide
  decoded := by decide

/-- The element `a=c`. -/
def oneSign : Element where
  key := [97]
  rest := [99]
  value := [99]
  key_ne := keyA_ne
  key_ampersand := keyA_ampersand
  key_equals := keyA_equals
  rest_ne := by decide
  rest_ampersand := by decide
  decoded := by decide

/-- The form `a=b&d&a=c&e=&d=b`: two of the neighbours are stored as well. -/
theorem first_equals_between : ∃ tree mem' tree' vs', avlTreeNew true true compareVars = some tree ∧
    parseQuery VarHeap.empty tree (some [97, 61, 98, 38, 100, 38, 97, 61, 99, 38, 101, 61, 38, 100, 61, 98]) 16 =
      some (mem', tree') ∧
    Holds mem' tree' vs' (addFields (fun _ => []) [([97], [98]), ([97], [99]), ([100], [98])]) := by
  obtain ⟨tree, e, H⟩ := holds_new
  have hstored : [[97, 61, 98], [100]].filterMap field ++ oneSign.entry :: [[101, 61], [100, 61, 98]].filterMap field =
      [([97], [98]), ([97], [99]), ([100], [98])] := by decide
  have hfront : ∀ x ∈ ([[97, 61, 98], [100]] : List Bytes), ampersand ∉ x := by decide
  have hbehind : ∀ x ∈ ([[101, 61], [100, 61, 98]] : List Bytes), ampersand ∉ x := by decide
  have hquery : [97, 61, 98, 38, 100, 38, 97, 61, 99, 38, 101, 61, 38, 100, 61, 98] =
      queryText ([[97, 61, 98], [100]] ++ oneSign.text :: [[101, 61], [100, 61, 98]]) := by decide
  obtain ⟨mem', tree', vs', e', H'⟩ :=
    (first_equals (H VarHeap.empty) oneSign [] hfront hbehind hquery).mpr ⟨by decide, Or.inl (by decide)⟩
  rw [hstored] at H'
  exact ⟨tree, mem', tree', vs', e, e', H'⟩

/-- `a=b=c` is stored as `c` under `a=b`. -/
theorem first_equals_fails : ∃ tree mem' tree' vs', avlTreeNew true true compareVars = some tree ∧
    parseQuery VarHeap.empty tree (some twoSigns.text) twoSigns.text.length = some (mem', tree') ∧
    Holds mem' tree' vs' (addFields (fun _ => []) [([97, 61, 98], [99])]) ∧
    ¬ ∃ mem' tree' vs', parseQuery VarHeap.empty tree (some twoSigns.text) twoSigns.text.length =
      some (mem', tree') ∧ Holds mem' tree' vs' (addFields (fun _ => []) [twoSigns.entry]) := by
  obtain ⟨tree, e, H⟩ := holds_new
  obtain ⟨mem', tree', vs', e', H', _⟩ := parseQuery_spec (H VarHeap.empty) (Nat.le_refl twoSigns.text.length)
    (by decide)
  have hfields : (if twoSigns.text.head? = some nul then []
      else fields (twoSigns.text.take twoSigns.text.length)) = [([97, 61, 98], [99])] := by
    decide
  rw [hfields] at H'
  refine ⟨tree, mem', tree', vs', e, e', H', ?_⟩
  rintro ⟨mem₂, tree₂, vs₂, e₂, H₂⟩
  rw [e'] at e₂
  cases e₂
  have hvalue := congrFun (H'.unique H₂) [97]
  revert hvalue
  decide

end IcecastCommon.Httpp
