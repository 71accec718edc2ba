import IcecastCommon.Httpp.Entries

/- Form fields as lists: what `url_unescape` makes of a string, where a field is cut, and
   which names and values a form gives. `parse_query` appends these to the entries of its
   tree, and encoding a list of pairs in any of the usual ways is undone by it. -/
namespace IcecastCommon.Httpp
open Avl Library
open Encoding (Bytes nul cString)

/-! Decoding. -/

/-- The string that `url_unescape` makes, NULL where an escape is cut short or not
hexadecimal, or where there is a NUL. -/
def decode : Bytes → Option Bytes
  | [] => some []
  | c :: rest =>
    if c = percent then
      match rest with
      | a :: b :: rest =>
        if hex a = -1 ∨ hex b = -1 then none
        else (decode rest).map (UInt8.ofNat (hex a * 16 + hex b).toNat :: ·)
      | _ => none
    else if c = plus then (decode rest).map (space :: ·)
    else if c = hash then some []
    else if c = nul then none
    else (decode rest).map (c :: ·)

theorem decode_escape (a b : UInt8) (rest : Bytes) :
    decode (percent :: a :: b :: rest) = if hex a = -1 ∨ hex b = -1 then none
      else (decode rest).map (UInt8.ofNat (hex a * 16 + hex b).toNat :: ·) := rfl

theorem decode_short {rest : Bytes} (h : rest.length < 2) : decode (percent :: rest) = none := by
  match rest, h with
  | [], _ => rfl
  | [_], _ => rfl

theorem decode_other {c : UInt8} (h : c ≠ percent) (rest : Bytes) :
    decode (c :: rest) = if c = plus then (decode rest).map (space :: ·)
      else if c = hash then some []
      else if c = nul then none
      else (decode rest).map (c :: ·) := by
  cases rest with
  | nil => exact if_neg h
  | cons a rest => cases rest <;> exact if_neg h

theorem take_drop_cons {src : Bytes} {len i : Nat} {c : UInt8} (hi : i < len) (hc : src[i]? = some c) :
    (src.take len).drop i = c :: (src.take len).drop (i + 1) := by
  have htake : (src.take len)[i]? = some c := by rw [List.getElem?_take_of_lt hi, hc]
  obtain ⟨hlt, hget⟩ := List.getElem?_eq_some_iff.mp htake
  rw [← hget]
  exact (List.cons_getElem_drop_succ ..).symm

theorem getElem?_of_lt {src : Bytes} {i : Nat} (h : i < src.length) : ∃ c, src[i]? = some c :=
  ⟨src[i], List.getElem?_eq_getElem h⟩

theorem unescapeLoop_spec {src : Bytes} {len : Nat} (hlen : len ≤ src.length) {fuel i : Nat}
    (hfuel : len - i ≤ fuel) (decoded : Bytes) :
    unescapeLoop src len fuel i decoded = some ((decode ((src.take len).drop i)).map (decoded ++ ·)) := by
  -- on the fuel; `i` is what has been read and `decoded` what has been written
  induction fuel generalizing i decoded with
  | zero =>
    have hi : ¬ i < len := by omega
    have hnil : (src.take len).drop i = [] := by
      apply List.drop_eq_nil_of_le
      rw [List.length_take]
      omega
    rw [unescapeLoop, if_neg hi, hnil, decode, Option.map_some, List.append_nil]
  | succ fuel ih =>
    rw [unescapeLoop]
    by_cases hi : i < len
    · obtain ⟨c, hc⟩ := getElem?_of_lt (Nat.lt_of_lt_of_le hi hlen)
      rw [if_pos hi, take_drop_cons hi hc]
      simp only [Option.bind_eq_bind, hc, Option.bind_some]
      by_cases hpercent : c = percent
      · rw [if_pos hpercent, hpercent]
        by_cases hshort : i + 2 ≥ len
        · -- the escape is cut short
          have htwo : ((src.take len).drop (i + 1)).length < 2 := by
            rw [List.length_drop, List.length_take]
            omega
          rw [if_pos hshort, decode_short htwo]
          rfl
        · have h1 : i + 1 < len := by omega
          have h2 : i + 2 < len := by omega
          obtain ⟨a, ha⟩ := getElem?_of_lt (Nat.lt_of_lt_of_le h1 hlen)
          obtain ⟨b, hb⟩ := getElem?_of_lt (Nat.lt_of_lt_of_le h2 hlen)
          rw [if_neg hshort, take_drop_cons h1 ha, take_drop_cons h2 hb, decode_escape]
          simp only [ha, hb, Option.bind_some]
          by_cases hhex : hex a = -1 ∨ hex b = -1
          · rw [if_pos hhex, if_pos hhex]
            rfl
          · rw [if_neg hhex, if_neg hhex, ih (by omega), Option.map_map]
            congr 2
            funext rest
            rw [Function.comp, List.append_assoc]
            rfl
      · rw [if_neg hpercent, decode_other hpercent]
        have hmap : ∀ d : UInt8, (decode ((src.take len).drop (i + 1))).map ((decoded ++ [d]) ++ ·) =
            ((decode ((src.take len).drop (i + 1))).map (d :: ·)).map (decoded ++ ·) := by
          intro d
          rw [Option.map_map]
          congr 1
          funext rest
          rw [Function.comp, List.append_assoc]
          rfl
        by_cases hplus : c = plus
        · rw [if_pos hplus, if_pos hplus, ih (by omega), hmap]
        · rw [if_neg hplus, if_neg hplus]
          by_cases hhash : c = hash
          · rw [if_pos hhash, if_pos hhash, Option.map_some, List.append_nil]
          · rw [if_neg hhash, if_neg hhash]
            by_cases hnul : c = nul
            · rw [if_pos hnul, if_pos hnul]
              rfl
            · rw [if_neg hnul, if_neg hnul, ih (by omega), hmap]
    · have hnil : (src.take len).drop i = [] := by
        apply List.drop_eq_nil_of_le
        rw [List.length_take]
        omega
      rw [if_neg hi, hnil, decode, Option.map_some, List.append_nil]

/-- `url_unescape` reads the first `len` bytes only, and decodes them. -/
theorem urlUnescape_spec {src : Bytes} {len : Nat} (hlen : len ≤ src.length) :
    urlUnescape src len = some (decode (src.take len)) := by
  rw [urlUnescape, unescapeLoop_spec hlen (Nat.le_of_eq (Nat.sub_zero len)), List.drop_zero]
  simp

/-! Fields. -/

/-- A string cut at its last `'='`. -/
def splitLast : Bytes → Option (Bytes × Bytes)
  | [] => none
  | c :: e =>
    match splitLast e with
    | some (key, value) => some (c :: key, value)
    | none => if c = equalsSign then some ([], e) else none

/-- The name and the value that a form element gives, if any. -/
def field (e : Bytes) : Option (Bytes × Bytes) :=
  match splitLast e with
  | none => none
  | some (key, value) =>
    if key = [] ∨ value = [] then none else (decode value).map fun v => (cString key, cString v)

/-- The names and values that a form gives. -/
def fields (query : Bytes) : List (Bytes × Bytes) := (query.splitOn ampersand).filterMap field

/-- Every value goes behind the others of its name. -/
def addFields (m : Entries) (fs : List (Bytes × Bytes)) : Entries :=
  fs.foldl (fun m f => Function.update m f.1 (m f.1 ++ [f.2])) m

theorem splitLast_eq {e key value : Bytes} (h : splitLast e = some (key, value)) :
    e = key ++ equalsSign :: value := by
  induction e generalizing key with
  | nil => cases h
  | cons c e ih =>
    rw [splitLast] at h
    cases hs : splitLast e with
    | some kv =>
      rw [hs] at h
      cases h
      rw [ih hs, List.cons_append]
    | none =>
      rw [hs] at h
      by_cases hc : c = equalsSign
      · rw [if_pos hc] at h
        cases h
        rw [hc, List.nil_append]
      · rw [if_neg hc] at h
        cases h

theorem splitLast_snoc (e : Bytes) (c : UInt8) :
    splitLast (e ++ [c]) = if c = equalsSign then some (e, [])
      else (splitLast e).map fun kv => (kv.1, kv.2 ++ [c]) := by
  induction e with
  | nil => rfl
  | cons d e ih =>
    rw [List.cons_append, splitLast, ih, splitLast]
    by_cases hc : c = equalsSign
    · rw [if_pos hc, if_pos hc]
    · rw [if_neg hc, if_neg hc]
      cases splitLast e with
      | some kv => rfl
      | none =>
        by_cases hd : d = equalsSign
        · simp only [Option.map_none, if_pos hd, Option.map_some]
        · simp only [Option.map_none, if_neg hd]

/-- Without a later `'='` a string is cut at the one it has. -/
theorem splitLast_append {key value : Bytes} (h : equalsSign ∉ value) :
    splitLast (key ++ equalsSign :: value) = some (key, value) := by
  induction value using List.reverseRecOn with
  | nil => rw [splitLast_snoc, if_pos rfl]
  | append_singleton value c ih =>
    have hc : c ≠ equalsSign := fun e => h (by rw [e]; simp)
    have hvalue : equalsSign ∉ value := fun hm => h (List.mem_append_left _ hm)
    have hassoc : key ++ equalsSign :: (value ++ [c]) = (key ++ equalsSign :: value) ++ [c] := by simp
    rw [hassoc, splitLast_snoc, if_neg hc, ih hvalue]
    rfl

/-- The bytes from one offset up to another. -/
def slice (s : Bytes) (start stop : Nat) : Bytes := (s.drop start).take (stop - start)

theorem slice_self (s : Bytes) (i : Nat) : slice s i i = [] := by
  rw [slice, Nat.sub_self, List.take_zero]

theorem slice_succ {s : Bytes} {start i : Nat} {c : UInt8} (hstart : start ≤ i) (hc : s[i]? = some c) :
    slice s start (i + 1) = slice s start i ++ [c] := by
  have hget : (s.drop start)[i - start]? = some c := by
    rw [List.getElem?_drop, ← hc]
    congr 1
    omega
  have hsucc : i + 1 - start = i - start + 1 := by omega
  rw [slice, slice, hsucc, List.take_add_one, hget]
  rfl

theorem take_drop_slice {s : Bytes} {start i len : Nat} (hstart : start ≤ i) (hi : i ≤ len) :
    (s.take len).drop start = slice s start i ++ (s.take len).drop i := by
  have hsplit : i = start + (i - start) := by omega
  have hmin : min (i - start) (len - start) = i - start := by omega
  conv_rhs => rw [hsplit, ← List.drop_drop]
  have hslice : slice s start (start + (i - start)) = ((s.take len).drop start).take (i - start) := by
    rw [slice, List.drop_take, List.take_take, hmin, Nat.add_sub_cancel_left]
  rw [hslice, List.take_append_drop]

variable {mem : VarHeap} {tree : Tree} {vs : List VarPtr} {m : Entries}

theorem parseQueryElement_none (mem : VarHeap) (tree : Tree) (query : Bytes) (start stop : Nat) :
    parseQueryElement mem tree query start none stop = some (mem, tree) := by
  unfold parseQueryElement
  exact ite_self _

theorem parseQueryElement_some (mem : VarHeap) (tree : Tree) (query : Bytes) {start mid stop : Nat}
    (h : ¬ start ≥ stop) : parseQueryElement mem tree query start (some mid) stop =
      if mid - start = 0 ∨ stop - mid - 1 = 0 then some (mem, tree)
      else (copyBytes query start (mid - start)).bind fun key =>
        (urlUnescape (query.drop (mid + 1)) (stop - mid - 1)).bind fun value =>
          setParamNocopy mem tree key value false := by
  unfold parseQueryElement
  exact if_neg h

/-- `parse_query_element` adds what its element gives. -/
theorem parseQueryElement_spec (H : Holds mem tree vs m) {query : Bytes} {start stop : Nat} {mid : Option Nat}
    (hstart : start ≤ stop) (hstop : stop ≤ query.length)
    (hmid : mid = (splitLast (slice query start stop)).map fun kv => start + kv.1.length) :
    ∃ mem' tree' vs', parseQueryElement mem tree query start mid stop = some (mem', tree') ∧
      Holds mem' tree' vs' (addFields m (field (slice query start stop)).toList) ∧
      Frame mem mem' vs vs' := by
  have hsame : ∀ e, field (slice query start stop) = none →
      parseQueryElement mem tree query start mid stop = some e → e = (mem, tree) →
      ∃ mem' tree' vs', parseQueryElement mem tree query start mid stop = some (mem', tree') ∧
        Holds mem' tree' vs' (addFields m (field (slice query start stop)).toList) ∧
        Frame mem mem' vs vs' := by
    intro e hfield hparse he
    rw [hfield]
    exact ⟨mem, tree, vs, hparse.trans (congrArg some he), H, Frame.refl mem vs⟩
  cases hsplit : splitLast (slice query start stop) with
  | none =>
    rw [hsplit] at hmid
    have hfield : field (slice query start stop) = none := by rw [field, hsplit]
    refine hsame (mem, tree) hfield ?_ rfl
    rw [hmid, Option.map_none, parseQueryElement_none]
  | some kv =>
    obtain ⟨key, value⟩ := kv
    have hcut := splitLast_eq hsplit
    have hlen : stop - start = key.length + (value.length + 1) := by
      have h := congrArg List.length hcut
      rw [slice, List.length_take, List.length_drop, List.length_append, List.length_cons] at h
      omega
    rw [hsplit, Option.map_some] at hmid
    have hlt : ¬ start ≥ stop := by omega
    have hkeylen : start + key.length - start = key.length := Nat.add_sub_cancel_left ..
    have hvaluelen : stop - (start + key.length) - 1 = value.length := by omega
    have hempty : (key.length = 0 ∨ value.length = 0) ↔ (key = [] ∨ value = []) := by
      rw [List.length_eq_zero_iff, List.length_eq_zero_iff]
    by_cases hnone : key = [] ∨ value = []
    · have hfield : field (slice query start stop) = none := by
        rw [field, hsplit]
        exact if_pos hnone
      refine hsame (mem, tree) hfield ?_ rfl
      rw [hmid, parseQueryElement_some mem tree query hlt, hkeylen, hvaluelen, if_pos (hempty.mpr hnone)]
    · -- a key and a value
      have hdrop : query.drop start = key ++ equalsSign :: (value ++ query.drop stop) := by
        have h := List.take_append_drop (stop - start) (query.drop start)
        rw [List.drop_drop, Nat.add_sub_cancel' hstart] at h
        rw [← h]
        show slice query start stop ++ _ = _
        rw [hcut]
        simp
      have hcopy : copyBytes query start key.length = some key := by
        have hle : start + key.length ≤ query.length := by omega
        rw [copyBytes, if_pos hle, hdrop, List.take_left]
      have hrest : query.drop (start + key.length + 1) = value ++ query.drop stop := by
        rw [Nat.add_assoc, ← List.drop_drop, hdrop, ← List.drop_drop, List.drop_left]
        rfl
      have hunescape : urlUnescape (query.drop (start + key.length + 1)) value.length = some (decode value) := by
        rw [hrest, urlUnescape_spec (by simp), List.take_left]
      have hparse : parseQueryElement mem tree query start mid stop =
          setParamNocopy mem tree key (decode value) false := by
        rw [hmid, parseQueryElement_some mem tree query hlt, hkeylen, hvaluelen,
          if_neg (fun h => hnone (hempty.mp h)), hcopy, Option.bind_some, hunescape, Option.bind_some]
      have hfield : field (slice query start stop) =
          (decode value).map fun v => (cString key, cString v) := by
        rw [field, hsplit]
        exact if_neg hnone
      cases hdecode : decode value with
      | none =>
        rw [hdecode] at hparse hfield
        exact hsame (mem, tree) hfield hparse rfl
      | some v =>
        rw [hdecode] at hparse hfield
        obtain ⟨mem', tree', vs', e, H', F⟩ := setParamNocopy_spec H key v false
        rw [hparse, hfield]
        exact ⟨mem', tree', vs', e, H', F⟩

theorem addFields_append (m : Entries) (fs gs : List (Bytes × Bytes)) :
    addFields m (fs ++ gs) = addFields (addFields m fs) gs := List.foldl_append ..

/-- What is added under a name are its values, in order. -/
theorem addFields_apply (m : Entries) (fs : List (Bytes × Bytes)) (name : Bytes) :
    addFields m fs name = m name ++ (fs.filter fun f => f.1 = name).map Prod.snd := by
  induction fs generalizing m with
  | nil => simp [addFields]
  | cons f fs ih =>
    have hstep : addFields m (f :: fs) = addFields (Function.update m f.1 (m f.1 ++ [f.2])) fs := rfl
    rw [hstep, ih]
    by_cases h : f.1 = name
    · rw [h, Function.update_self, List.filter_cons_of_pos (by simpa using h), List.map_cons,
        List.append_assoc, List.singleton_append]
    · rw [Function.update_of_ne (Ne.symm h), List.filter_cons_of_neg (by simpa using h)]

theorem fields_single {e : Bytes} (h : ampersand ∉ e) : fields e = (field e).toList := by
  rw [fields, List.splitOn_eq_singleton h]
  cases hf : field e with
  | none => rw [List.filterMap_cons_none hf]; rfl
  | some f => rw [List.filterMap_cons_some hf]; rfl

theorem fields_cons {e : Bytes} (h : ampersand ∉ e) (rest : Bytes) :
    fields (e ++ ampersand :: rest) = (field e).toList ++ fields rest := by
  rw [fields, List.splitOn_append_cons_self_of_not_mem h, fields]
  cases hf : field e with
  | none => rw [List.filterMap_cons_none hf]; rfl
  | some f => rw [List.filterMap_cons_some hf]; rfl

/-- A form is cut back into its elements. -/
theorem fields_intercalate {es : List Bytes} (hne : es ≠ []) (h : ∀ e ∈ es, ampersand ∉ e) :
    fields ([ampersand].intercalate es) = es.filterMap field := by
  rw [fields, List.splitOn_intercalate _ h hne]

/-- The loop of `parse_query`: `mid` is the last `'='` of the element so far. -/
theorem parseQueryLoop_spec (H : Holds mem tree vs m) {query : Bytes} {n i start : Nat} {mid : Option Nat}
    (hstart : start ≤ i) (hlen : i + n ≤ query.length) (hplain : ampersand ∉ slice query start i)
    (hmid : mid = (splitLast (slice query start i)).map fun kv => start + kv.1.length) :
    ∃ mem' tree' vs', parseQueryLoop query n i start mid mem tree = some (mem', tree') ∧
      Holds mem' tree' vs' (addFields m (fields ((query.take (i + n)).drop start))) ∧
      Frame mem mem' vs vs' := by
  -- on the bytes left; `start` and `mid` note the element that is being read
  induction n generalizing i start mid mem tree vs m with
  | zero =>
    have hrest : (query.take (i + 0)).drop start = slice query start i := by
      rw [take_drop_slice hstart (Nat.le_add_right i 0), Nat.add_zero]
      have hnil : (query.take i).drop i = [] := List.drop_eq_nil_of_le (List.length_take_le ..)
      rw [hnil, List.append_nil]
    rw [hrest, fields_single hplain, parseQueryLoop]
    exact parseQueryElement_spec H hstart hlen hmid
  | succ n ih =>
    have hlt : i < query.length := by omega
    obtain ⟨c, hc⟩ := getElem?_of_lt hlt
    have hrest : (query.take (i + (n + 1))).drop start =
        slice query start i ++ c :: (query.take (i + (n + 1))).drop (i + 1) := by
      rw [take_drop_slice hstart (Nat.le_add_right i (n + 1)), take_drop_cons (by omega) hc]
    have hmore : i + (n + 1) = i + 1 + n := by omega
    rw [parseQueryLoop]
    simp only [hc, Option.bind_eq_bind, Option.bind_some]
    by_cases hamp : c = ampersand
    · -- the element ends here
      obtain ⟨mem₁, tree₁, vs₁, e₁, H₁, F₁⟩ := parseQueryElement_spec H hstart (Nat.le_of_lt hlt) hmid
      have hnew : ampersand ∉ slice query (i + 1) (i + 1) := by
        rw [slice_self]
        exact List.not_mem_nil
      have hmid' : none = (splitLast (slice query (i + 1) (i + 1))).map fun kv => i + 1 + kv.1.length := by
        rw [slice_self]
        rfl
      obtain ⟨mem', tree', vs', e', H', F'⟩ := ih H₁ (Nat.le_refl (i + 1)) (by omega : i + 1 + n ≤ query.length)
        hnew hmid'
      refine ⟨mem', tree', vs', ?_, ?_, F₁.trans F'⟩
      · rw [if_pos hamp, e₁, Option.bind_some, e']
      · rw [hrest, hamp, fields_cons hplain, addFields_append, hmore]
        exact H'
    · have hplain' : ampersand ∉ slice query start (i + 1) := by
        rw [slice_succ hstart hc, List.mem_append, List.mem_singleton]
        exact fun h => h.elim hplain fun e => hamp e.symm
      rw [if_neg hamp, hmore]
      by_cases heq : c = equalsSign
      · rw [if_pos heq]
        refine ih H (by omega) (by omega) hplain' ?_
        rw [slice_succ hstart hc, splitLast_snoc, if_pos heq, Option.map_some]
        congr 1
        rw [slice, List.length_take, List.length_drop]
        omega
      · rw [if_neg heq]
        refine ih H (by omega) (by omega) hplain' ?_
        rw [slice_succ hstart hc, splitLast_snoc, if_neg heq, Option.map_map, hmid]
        rfl

/-- `parse_query` adds what the form gives; before a NUL it reads nothing. -/
theorem parseQuery_spec (H : Holds mem tree vs m) {query : Bytes} {len : Nat} (hlen : len ≤ query.length)
    (hne : query ≠ []) :
    ∃ mem' tree' vs', parseQuery mem tree (some query) len = some (mem', tree') ∧
      Holds mem' tree' vs' (addFields m (if query.head? = some nul then [] else fields (query.take len))) ∧
      Frame mem mem' vs vs' := by
  obtain ⟨c, rest, rfl⟩ := List.exists_cons_of_ne_nil hne
  rw [parseQuery]
  simp only [List.getElem?_cons_zero, List.head?_cons, Option.some.injEq, Option.bind_eq_bind, Option.bind_some]
  by_cases hc : c = nul
  · rw [if_pos hc, if_pos hc]
    exact ⟨mem, tree, vs, rfl, H, Frame.refl mem vs⟩
  · rw [if_neg hc, if_neg hc]
    have hfit : 0 + len ≤ (c :: rest).length := by
      rw [Nat.zero_add]
      exact hlen
    have hplain : ampersand ∉ slice (c :: rest) 0 0 := by
      rw [slice_self]
      exact List.not_mem_nil
    have hmid : none = (splitLast (slice (c :: rest) 0 0)).map fun kv => 0 + kv.1.length := by
      rw [slice_self]
      rfl
    have hloop := parseQueryLoop_spec H (Nat.le_refl 0) hfit hplain hmid
    rw [Nat.zero_add, List.drop_zero] at hloop
    exact hloop

end IcecastCommon.Httpp
