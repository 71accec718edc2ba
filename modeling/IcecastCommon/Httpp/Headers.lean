import IcecastCommon.Httpp.Lines

/- A header line as a name and a value: the name is what comes before the first colon, the
   value what comes behind it and behind the colons and spaces that follow. `parse_headers`
   sets one variable for each line that has both. -/
namespace IcecastCommon.Httpp
open Avl Library
open Encoding (Bytes nul cString cString_of_plain cString_append_nul nul_notMem_cString)

/-- How many bytes of a line a loop up to its `int` length looks at. -/
def scanned (s : Bytes) : Nat := (toInt s.length).toNat

theorem toInt_eq (n : Nat) : toInt n =
    if n % 2 ^ 32 < 2 ^ 31 then ((n % 2 ^ 32 : Nat) : Int) else (n % 2 ^ 32 : Nat) - 2 ^ 32 := by
  unfold toInt
  rw [Int.bmod_def]
  norm_num
  split <;> split <;> omega

theorem toInt_le (n : Nat) : toInt n ≤ n := by
  rw [toInt_eq]
  split <;> omega

theorem scanned_le (s : Bytes) : scanned s ≤ s.length := by
  have := toInt_le s.length
  rw [scanned]
  omega

/-- A line shorter than 2 GiB is looked at whole. -/
theorem scanned_short {s : Bytes} (h : s.length < 2 ^ 31) : scanned s = s.length := by
  rw [scanned, toInt_eq]
  split <;> omega

/-- The value behind a first colon, when it begins within the next `n` bytes. -/
def valueAfter (n : Nat) (t : Bytes) : Option Bytes :=
  let rest := ((t.take n).dropWhile (· = colon)).dropWhile (· = space)
  if rest = [] then none else some (rest ++ t.drop n)

theorem valueAfter_colon (n : Nat) (t : Bytes) : valueAfter (n + 1) (colon :: t) = valueAfter n t := by
  have hskip : ((colon :: t).take (n + 1)).dropWhile (· = colon) = (t.take n).dropWhile (· = colon) := by
    rw [List.take_succ_cons, List.dropWhile_cons, if_pos (by simp)]
  rw [valueAfter, valueAfter, hskip]
  rfl

/-- The name and the value of a line, of which `n` bytes are looked at. -/
def headerOf : Nat → Bytes → Option (Bytes × Bytes)
  | n + 1, c :: t =>
    if c = colon then (valueAfter n t).map (Prod.mk [])
    else (headerOf n t).map fun header => (c :: header.1, header.2)
  | _, _ => none

/-- What `parse_headers` does for a line. -/
def headerCalls (s : Bytes) : List StoreCall :=
  (headerOf (scanned s) s).toList.map fun header => .setvar (some (header.1.map toLower)) (some header.2)

/-! The loop over a line. -/

theorem drop_takeWhile_length (f : UInt8 → Bool) (u r : Bytes) :
    (u ++ r).drop (u.takeWhile f).length = u.dropWhile f ++ r := by
  have h : u ++ r = u.takeWhile f ++ (u.dropWhile f ++ r) := by
    rw [← List.append_assoc, List.takeWhile_append_dropWhile]
  rw [h, List.drop_left]

theorem assoc_next (pre done : Bytes) (c : UInt8) (t r : Bytes) :
    pre ++ (done ++ (c :: t ++ r)) = pre ++ ((done ++ [c]) ++ (t ++ r)) := by
  simp

theorem length_next (done : Bytes) (c : UInt8) : (done ++ [c]).length = done.length + 1 := by
  rw [List.length_append]
  rfl

theorem skipSpaces_spec (pre done t r : Bytes) {n : Nat} (hn : n ≤ t.length) :
    skipSpaces (pre ++ (done ++ (t ++ r))) pre.length n done.length =
      some (done.length + ((t.take n).takeWhile (· = space)).length) := by
  induction n generalizing done t with
  | zero => rfl
  | succ n ih =>
    obtain ⟨c, t, rfl⟩ := List.exists_cons_of_length_pos (Nat.lt_of_lt_of_le (Nat.succ_pos n) hn)
    rw [List.length_cons] at hn
    have hget : (pre ++ (done ++ (c :: t ++ r)))[pre.length + done.length]? = some c :=
      getElem?_next pre done c (t ++ r)
    rw [skipSpaces, hget, Option.bind_eq_bind, Option.bind_some, List.take_succ_cons]
    by_cases hc : c = space
    · have htake : (c :: t.take n).takeWhile (· = space) = c :: (t.take n).takeWhile (· = space) := by
        rw [List.takeWhile_cons, if_pos (by simpa using hc)]
      have hrest := ih (done ++ [c]) t (by omega)
      rw [length_next, ← assoc_next] at hrest
      rw [if_pos hc, htake, hrest, List.length_cons]
      congr 1
      omega
    · have htake : (c :: t.take n).takeWhile (· = space) = [] := by
        rw [List.takeWhile_cons, if_neg (by simpa using hc)]
      rw [if_neg hc, htake]
      rfl

/-- The loop behind the first colon. -/
theorem headerLoop_after (pre done t r : Bytes) {n slen : Nat} (hn : n ≤ t.length)
    (hslen : slen = done.length + n) :
    ∃ x value, headerLoop pre.length slen n done.length true (pre ++ (done ++ (t ++ r))) =
        some (pre ++ (done ++ (x ++ r)), value) ∧ x.length = t.length ∧
      (valueAfter n t = none → value = none) ∧
      ∀ v, valueAfter n t = some v →
        ∃ j, value = some (pre.length + (done.length + j)) ∧ j ≤ x.length ∧ x.drop j = v := by
  induction n generalizing done t with
  | zero =>
    have hnone : valueAfter 0 t = none := rfl
    refine ⟨t, none, rfl, rfl, fun _ => rfl, ?_⟩
    intro v hv
    rw [hnone] at hv
    cases hv
  | succ n ih =>
    obtain ⟨c, t, rfl⟩ := List.exists_cons_of_length_pos (Nat.lt_of_lt_of_le (Nat.succ_pos n) hn)
    have hget : (pre ++ (done ++ (c :: t ++ r)))[pre.length + done.length]? = some c :=
      getElem?_next pre done c (t ++ r)
    rw [headerLoop, hget, Option.bind_eq_bind, Option.bind_some]
    by_cases hc : c = colon
    · -- another colon
      subst hc
      have hput : putNul (pre ++ (done ++ (colon :: t ++ r))) (pre.length + done.length) =
          some (pre ++ (done ++ (nul :: t ++ r))) := putNul_next pre done colon (t ++ r)
      rw [List.length_cons] at hn
      obtain ⟨x, value, e, hlen, hnone, hsome⟩ := ih (done ++ [nul]) t (by omega)
        (by rw [length_next]; omega)
      rw [length_next, ← assoc_next, ← assoc_next] at e
      refine ⟨nul :: x, value, ?_, by rw [List.length_cons, List.length_cons, hlen], ?_, ?_⟩
      · rw [if_pos rfl, hput]
        exact e
      · rw [valueAfter_colon]
        exact hnone
      · intro v hv
        rw [valueAfter_colon] at hv
        obtain ⟨j, hj, hle, hdrop⟩ := hsome v hv
        refine ⟨j + 1, ?_, Nat.succ_le_succ hle, hdrop⟩
        rw [hj, length_next]
        congr 1
        omega
    · -- the value begins, perhaps after spaces
      rw [if_neg hc, if_pos rfl, skipSpaces_spec pre done (c :: t) r hn]
      have hcolon : ((c :: t).take (n + 1)).dropWhile (· = colon) = (c :: t).take (n + 1) := by
        rw [List.take_succ_cons, List.dropWhile_cons, if_neg (by simpa using hc)]
      have hsplit := List.takeWhile_append_dropWhile (p := (· = space)) (l := (c :: t).take (n + 1))
      have hlen := congrArg List.length hsplit
      rw [List.length_append, List.length_take_of_le hn] at hlen
      refine ⟨c :: t, _, rfl, rfl, ?_, ?_⟩
      · intro hnone
        rw [valueAfter, hcolon] at hnone
        by_cases hrest : ((c :: t).take (n + 1)).dropWhile (· = space) = []
        · rw [hrest, List.length_nil] at hlen
          rw [if_neg (by omega)]
        · rw [if_neg hrest] at hnone
          cases hnone
      · intro v hv
        rw [valueAfter, hcolon] at hv
        by_cases hrest : ((c :: t).take (n + 1)).dropWhile (· = space) = []
        · rw [if_pos hrest] at hv
          cases hv
        · rw [if_neg hrest] at hv
          have hpos := List.length_pos_iff.mpr hrest
          refine ⟨(((c :: t).take (n + 1)).takeWhile (· = space)).length, ?_, by omega, ?_⟩
          · rw [if_pos (by omega)]
          · rw [← Option.some.inj hv, ← drop_takeWhile_length, List.take_append_drop]

/-- The loop over a line: a header cuts it into its name and its value. -/
theorem headerLoop_spec (pre done t r : Bytes) {n slen : Nat} (hn : n ≤ t.length)
    (hslen : slen = done.length + n) :
    ∃ x value, headerLoop pre.length slen n done.length false (pre ++ (done ++ (t ++ r))) =
        some (pre ++ (done ++ (x ++ r)), value) ∧ x.length = t.length ∧
      (headerOf n t = none → value = none) ∧
      ∀ name v, headerOf n t = some (name, v) →
        ∃ w j, x = name ++ nul :: w ∧ value = some (pre.length + (done.length + (name.length + 1 + j))) ∧
          j ≤ w.length ∧ w.drop j = v := by
  -- on the bytes left of the line: the colon, or a line without one
  induction n generalizing done t with
  | zero =>
    have hnone : headerOf 0 t = none := by cases t <;> rfl
    refine ⟨t, none, rfl, rfl, fun _ => rfl, ?_⟩
    intro name v hv
    rw [hnone] at hv
    cases hv
  | succ n ih =>
    obtain ⟨c, t, rfl⟩ := List.exists_cons_of_length_pos (Nat.lt_of_lt_of_le (Nat.succ_pos n) hn)
    rw [List.length_cons] at hn
    have hget : (pre ++ (done ++ (c :: t ++ r)))[pre.length + done.length]? = some c :=
      getElem?_next pre done c (t ++ r)
    rw [headerLoop, hget, Option.bind_eq_bind, Option.bind_some, headerOf]
    by_cases hc : c = colon
    · -- the name ends here
      have hput : putNul (pre ++ (done ++ (c :: t ++ r))) (pre.length + done.length) =
          some (pre ++ (done ++ (nul :: t ++ r))) := putNul_next pre done c (t ++ r)
      obtain ⟨x, value, e, hlen, hnone, hsome⟩ := headerLoop_after pre (done ++ [nul]) t r
        (by omega : n ≤ t.length) (by rw [length_next]; omega : slen = (done ++ [nul]).length + n)
      rw [length_next, ← assoc_next, ← assoc_next] at e
      rw [if_pos hc, if_pos hc, hput]
      refine ⟨nul :: x, value, e, by rw [List.length_cons, List.length_cons, hlen], ?_, ?_⟩
      · intro h
        exact hnone (Option.map_eq_none_iff.mp h)
      · intro name v h
        obtain ⟨v', hv', hpair⟩ := Option.map_eq_some_iff.mp h
        cases hpair
        obtain ⟨j, hj, hle, hdrop⟩ := hsome v hv'
        refine ⟨x, j, rfl, ?_, hle, hdrop⟩
        rw [hj, length_next, List.length_nil]
        congr 1
        omega
    · obtain ⟨x, value, e, hlen, hnone, hsome⟩ := ih (done ++ [c]) t (by omega)
        (by rw [length_next]; omega)
      rw [length_next, ← assoc_next, ← assoc_next] at e
      rw [if_neg hc, if_neg Bool.false_ne_true, if_neg hc]
      refine ⟨c :: x, value, e, by rw [List.length_cons, List.length_cons, hlen], ?_, ?_⟩
      · intro h
        exact hnone (Option.map_eq_none_iff.mp h)
      · intro name v h
        obtain ⟨⟨name', v'⟩, hheader, hpair⟩ := Option.map_eq_some_iff.mp h
        cases hpair
        obtain ⟨w, j, hx, hj, hle, hdrop⟩ := hsome name' _ hheader
        refine ⟨w, j, by rw [hx]; rfl, ?_, hle, hdrop⟩
        rw [hj, length_next, List.length_cons]
        dsimp only
        congr 1
        omega

/-! The headers of a message. -/

theorem toNat_toLower (c : UInt8) :
    (toLower c).toNat = if 65 ≤ c.toNat ∧ c.toNat ≤ 90 then c.toNat + 32 else c.toNat := by
  have hc : (65 ≤ c ∧ c ≤ 90) ↔ (65 ≤ c.toNat ∧ c.toNat ≤ 90) :=
    and_congr UInt8.le_iff_toNat_le UInt8.le_iff_toNat_le
  rw [toLower, apply_ite UInt8.toNat]
  simp only [hc]
  split_ifs with h
  · have h32 : (32 : UInt8).toNat = 32 := rfl
    rw [UInt8.toNat_add]
    omega
  · rfl

theorem toLower_ne_nul {c : UInt8} (h : c ≠ nul) : toLower c ≠ nul := by
  intro h0
  apply h
  apply UInt8.toNat_inj.mp
  have h1 := congrArg UInt8.toNat h0
  rw [toNat_toLower] at h1
  have hz : nul.toNat = 0 := rfl
  split_ifs at h1
  · omega
  · exact h1

theorem nul_notMem_lower {s : Bytes} (h : nul ∉ s) : nul ∉ s.map toLower := by
  intro hm
  obtain ⟨c, hc, hlow⟩ := List.mem_map.mp hm
  have hne : c ≠ nul := fun e => h (e ▸ hc)
  exact toLower_ne_nul hne hlow

/-- The string at an offset is lowercased in its place. -/
theorem lowercase_spec {pre name r : Bytes} (h : nul ∉ name) :
    lowercase (pre ++ (name ++ nul :: r)) pre.length = some (pre ++ (name.map toLower ++ nul :: r)) := by
  have hdrop : (pre ++ (name ++ nul :: r)).drop (pre.length + name.length) = nul :: r := by
    rw [← List.drop_drop, List.drop_left, List.drop_left]
  rw [lowercase, stringAt_start, cString_of_plain h, Option.bind_eq_bind, Option.bind_some, hdrop,
    List.take_left, List.append_assoc]

theorem headerOf_plain {n : Nat} {s name v : Bytes} (hs : nul ∉ s) (h : headerOf n s = some (name, v)) :
    nul ∉ name := by
  induction n generalizing s name with
  | zero => cases s <;> cases h
  | succ n ih =>
    cases s with
    | nil => cases h
    | cons c s =>
      rw [headerOf] at h
      by_cases hc : c = colon
      · rw [if_pos hc] at h
        obtain ⟨v', _, hpair⟩ := Option.map_eq_some_iff.mp h
        cases hpair
        exact List.not_mem_nil
      · rw [if_neg hc] at h
        obtain ⟨⟨name', v'⟩, hheader, hpair⟩ := Option.map_eq_some_iff.mp h
        cases hpair
        have hne : nul ≠ c := fun e => hs (e ▸ List.mem_cons_self)
        have hrest : nul ∉ s := fun hm => hs (List.mem_cons_of_mem c hm)
        rw [List.mem_cons]
        exact fun hm => hm.elim hne (ih hrest hheader)

section
variable {p : Parser} {m : Maps}

/-- `parse_headers` on one line sets the variable of its header, and keeps the length of the
line. -/
theorem parseHeader_spec (R : Represents p m) (pre r : Bytes) {s : Bytes} (hs : nul ∉ s) :
    ∃ x p', parseHeader p (pre ++ (s ++ nul :: r)) pre.length = some (pre ++ (x ++ nul :: r), p') ∧
      x.length = s.length ∧ Represents p' ((headerCalls s).foldl StoreCall.apply m) ∧
      p'.reqType = p.reqType ∧ p'.uri = p.uri := by
  have hslen : scanned s = ([] : Bytes).length + scanned s := by rw [List.length_nil, Nat.zero_add]
  obtain ⟨x, value, e, hlen, hnone, hsome⟩ := headerLoop_spec pre [] s (nul :: r)
    (scanned_le s) hslen
  rw [List.nil_append, List.nil_append, List.length_nil] at e
  have hstr : stringAt (pre ++ (s ++ nul :: r)) pre.length = some s := by
    rw [stringAt_start, cString_of_plain hs]
  rw [parseHeader, Option.bind_eq_bind, bind_of_eq hstr, ← scanned, Option.bind_eq_bind, bind_of_eq e]
  cases hheader : headerOf (scanned s) s with
  | none =>
    rw [hnone hheader]
    refine ⟨x, p, rfl, hlen, ?_, rfl, rfl⟩
    rw [headerCalls, hheader]
    exact R
  | some header =>
    obtain ⟨name, v⟩ := header
    obtain ⟨w, j, hx, hj, hle, hdrop⟩ := hsome name v hheader
    rw [List.length_nil, Nat.zero_add] at hj
    have hplain := headerOf_plain hs hheader
    have hbuffer : pre ++ (x ++ nul :: r) = pre ++ (name ++ nul :: (w ++ nul :: r)) := by rw [hx]; simp
    have hlower : pre ++ (name.map toLower ++ nul :: (w ++ nul :: r)) =
        (pre ++ name.map toLower ++ [nul]) ++ (w ++ nul :: r) := by simp
    have hoffset : pre.length + (name.length + 1 + j) = (pre ++ name.map toLower ++ [nul]).length + j := by
      simp only [List.length_append, List.length_map, List.length_singleton]
      omega
    have hname : stringAt (pre ++ (name.map toLower ++ nul :: (w ++ nul :: r))) pre.length =
        some (name.map toLower) := by
      rw [stringAt_start, cString_of_plain (nul_notMem_lower hplain)]
    have hvalue : stringAt (pre ++ (name.map toLower ++ nul :: (w ++ nul :: r)))
        (pre.length + (name.length + 1 + j)) = some (cString v) := by
      rw [hlower, hoffset, stringAt_base _ _ _ hle, hdrop]
    obtain ⟨p', e', R', hreq, huri⟩ := R.setvar (name.map toLower) (cString v)
    refine ⟨name.map toLower ++ nul :: w, p', ?_, ?_, ?_, hreq, huri⟩
    · rw [hj, hbuffer]
      simp only [lowercase_spec hplain, hname, hvalue, e', Option.bind_eq_bind, Option.bind_some]
      simp
    · rw [← hlen, hx]
      simp
    · rw [headerCalls, hheader]
      rw [cString_of_plain (nul_notMem_cString v)] at R'
      exact R'

/-- `parse_headers` on lines that lie one after the other. -/
theorem parseHeaders_spec (R : Represents p m) {segs : List Bytes} (pre : Bytes) {y : Bytes} {line : Lines} {l : Nat}
    (hlaid : Laid segs y) (hline : ∀ k < segs.length, line (l + k) = (starts pre.length segs)[k]?) :
    ∃ p', parseHeaders line segs.length l (pre ++ y) p = some p' ∧
      Represents p' ((segs.flatMap fun seg => headerCalls (lineText seg)).foldl StoreCall.apply m) ∧
      p'.reqType = p.reqType ∧ p'.uri = p.uri := by
  -- on the lines; the store keeps the invariant from one header to the next
  induction segs generalizing p m pre y l with
  | nil => exact ⟨p, rfl, R, rfl, rfl⟩
  | cons seg segs ih =>
    obtain ⟨z, rfl, hlaid'⟩ := hlaid
    have hfirst : line l = some pre.length := hline 0 (Nat.succ_pos _)
    -- what comes behind the string of the line stays as it is
    obtain ⟨w, r, hw, hr⟩ := cString_split (seg.map blank) z
    have hbuffer : seg.map blank ++ nul :: z = lineText seg ++ nul :: r := by
      rw [← hr, ← List.append_assoc, lineText, ← hw]
    have hplain : nul ∉ lineText seg := nul_notMem_cString _
    obtain ⟨x, p₁, e₁, hlen, R₁, hreq₁, huri₁⟩ := parseHeader_spec R pre r hplain
    have hnext : pre ++ (x ++ nul :: r) = (pre ++ x ++ w ++ [nul]) ++ z := by
      rw [← hr]
      simp
    have hstart : (pre ++ x ++ w ++ [nul]).length = pre.length + seg.length + 1 := by
      have h := congrArg List.length hw
      rw [List.length_map, List.length_append, ← lineText] at h
      simp only [List.length_append, List.length_singleton, hlen]
      omega
    have hline' : ∀ k < segs.length,
        line (l + 1 + k) = (starts (pre ++ x ++ w ++ [nul]).length segs)[k]? := by
      intro k hk
      have h := hline (k + 1) (Nat.succ_lt_succ hk)
      rw [starts, List.getElem?_cons_succ] at h
      rw [hstart, ← h]
      congr 1
      omega
    obtain ⟨p', e', R', hreq, huri⟩ := ih R₁ (pre ++ x ++ w ++ [nul]) hlaid' hline'
    refine ⟨p', ?_, ?_, hreq.trans hreq₁, huri.trans huri₁⟩
    · rw [List.length_cons, parseHeaders, hfirst, hbuffer]
      simp only [Option.bind_eq_bind, Option.bind_some, e₁, hnext]
      exact e'
    · rw [List.flatMap_cons, List.foldl_append]
      exact R'

end

end IcecastCommon.Httpp
