import IcecastCommon.Httpp.RequestText

/- First lines of three words with runs of spaces between them. The scan of `httpp_parse` looks
   at the first `scanned` bytes of a line only. Where it comes past the start of the third word,
   the line is read as the words of its front and what lies behind them. -/
namespace IcecastCommon.Httpp
open Avl Library
open Encoding (Bytes nul cString cString_of_plain cString_append_nul)

/-! The starts of words. -/

theorem wordStarts_inside {a : Bytes} (h : space ∉ a) (i : Nat) (t : Bytes) :
    wordStarts i false (a ++ t) = wordStarts (i + a.length) false t := by
  induction a generalizing i with
  | nil => rfl
  | cons c a ih =>
    have hc : c ≠ space := fun e => h (e ▸ List.mem_cons_self)
    have hrest := ih (fun hm => h (List.mem_cons_of_mem c hm)) (i + 1)
    rw [List.cons_append, wordStarts, if_neg hc, if_neg Bool.false_ne_true, hrest, List.length_cons]
    congr 1
    omega

theorem wordStarts_space (i : Nat) (whitespace : Bool) (t : Bytes) :
    wordStarts i whitespace (space :: t) = wordStarts (i + 1) true t := if_pos rfl

theorem le_of_mem_wordStarts {i u : Nat} {whitespace : Bool} {s : Bytes} (h : u ∈ wordStarts i whitespace s) :
    i ≤ u := by
  induction s generalizing i whitespace with
  | nil => cases h
  | cons c s ih =>
    rw [wordStarts] at h
    by_cases hc : c = space
    · rw [if_pos hc] at h
      exact Nat.le_of_succ_le (ih h)
    · rw [if_neg hc] at h
      by_cases hw : whitespace = true
      · rw [if_pos hw, List.mem_cons] at h
        rcases h with rfl | h
        · exact Nat.le_refl _
        · exact Nat.le_of_succ_le (ih h)
      · rw [if_neg hw] at h
        exact Nat.le_of_succ_le (ih h)

/-- A scan that stops early finds the words that begin before. -/
theorem wordStarts_take (n i : Nat) (whitespace : Bool) (s : Bytes) :
    wordStarts i whitespace (s.take n) = (wordStarts i whitespace s).filter (· < i + n) := by
  induction s generalizing n i whitespace with
  | nil => rw [List.take_nil]; rfl
  | cons c s ih =>
    cases n with
    | zero =>
      symm
      rw [List.take_zero, wordStarts, List.filter_eq_nil_iff]
      intro u hu
      have := le_of_mem_wordStarts hu
      rw [decide_eq_true_eq]
      omega
    | succ n =>
      have hnext : i + (n + 1) = i + 1 + n := by omega
      have hbegins : i < i + 1 + n := by omega
      rw [List.take_succ_cons, wordStarts, wordStarts, hnext]
      by_cases hc : c = space
      · rw [if_pos hc, if_pos hc, ih]
      · rw [if_neg hc, if_neg hc]
        by_cases hw : whitespace = true
        · rw [if_pos hw, if_pos hw, ih, List.filter_cons, if_pos (decide_eq_true hbegins)]
        · rw [if_neg hw, if_neg hw, ih]

/-! Runs of spaces. -/

def spaces (n : Nat) : Bytes := List.replicate n space

theorem wordStarts_spaces (n i : Nat) (t : Bytes) :
    wordStarts i true (spaces n ++ t) = wordStarts (i + n) true t := by
  induction n generalizing i with
  | zero => rfl
  | succ n ih =>
    rw [spaces, List.replicate_succ, List.cons_append, wordStarts_space, ← spaces, ih]
    congr 1
    omega

theorem noSpace_cons {c : UInt8} {s : Bytes} : space ∉ c :: s ↔ c ≠ space ∧ space ∉ s := by
  rw [List.mem_cons, not_or, ne_comm]

theorem wordStarts_first {a : Bytes} (hne : a ≠ []) (ha : space ∉ a) (i : Nat) (t : Bytes) :
    wordStarts i true (a ++ t) = i :: wordStarts (i + a.length) false t := by
  obtain ⟨c, a, rfl⟩ := List.exists_cons_of_ne_nil hne
  obtain ⟨hc, hrest⟩ := noSpace_cons.mp ha
  rw [List.cons_append, wordStarts, if_neg hc, if_pos rfl, wordStarts_inside hrest, List.length_cons]
  congr 2
  omega

theorem wordStarts_gap (n i : Nat) (whitespace : Bool) {a : Bytes} (hne : a ≠ []) (ha : space ∉ a) (t : Bytes) :
    wordStarts i whitespace (space :: (spaces n ++ (a ++ t))) =
      (i + 1 + n) :: wordStarts (i + 1 + n + a.length) false t := by
  rw [wordStarts_space, wordStarts_spaces, wordStarts_first hne ha]

theorem wordStarts_end (n i : Nat) : wordStarts i false (spaces n) = [] := by
  cases n with
  | zero => rfl
  | succ n =>
    have h := wordStarts_spaces n (i + 1) []
    rw [List.append_nil] at h
    rw [spaces, List.replicate_succ, wordStarts_space, ← spaces, h]
    rfl

/-! Lines of three words. -/

/-- Three words with spaces between them, and maybe behind the last one. -/
structure ThreeWords where
  method : Bytes
  /-- How many spaces there are between the words beyond the one that there must be. -/
  between : Nat
  uri : Bytes
  behind : Nat
  version : Bytes
  trailing : Nat
  method_noSpace : space ∉ method
  uri_ne : uri ≠ []
  uri_noSpace : space ∉ uri
  version_ne : version ≠ []
  version_noSpace : space ∉ version

namespace ThreeWords
variable (l : ThreeWords)

/-- The line up to its version. -/
def front : Bytes := l.method ++ space :: (spaces l.between ++ (l.uri ++ space :: spaces l.behind))

def text : Bytes := l.front ++ (l.version ++ spaces l.trailing)

/-- The line with another version and other spaces behind it. -/
def withVersion (version : Bytes) (n : Nat) (hne : version ≠ []) (hspace : space ∉ version) : ThreeWords :=
  { l with version := version, trailing := n, version_ne := hne, version_noSpace := hspace }

theorem front_length : l.front.length = l.method.length + 1 + l.between + (l.uri.length + 1 + l.behind) := by
  simp only [front, spaces, List.length_append, List.length_cons, List.length_replicate]
  omega

theorem wordStarts_text :
    wordStarts 0 false l.text = [l.method.length + 1 + l.between, l.front.length] := by
  have htext : l.text = l.method ++ space :: (spaces l.between ++ (l.uri ++ space ::
      (spaces l.behind ++ (l.version ++ spaces l.trailing)))) := by
    rw [text, front]
    simp
  rw [htext, wordStarts_inside l.method_noSpace, wordStarts_gap _ _ _ l.uri_ne l.uri_noSpace,
    wordStarts_gap _ _ _ l.version_ne l.version_noSpace, wordStarts_end, l.front_length, Nat.zero_add]
  congr 2
  omega

end ThreeWords

/-! What is read of them. -/

theorem map_blankSpace {s : Bytes} (h : space ∉ s) : s.map blankSpace = s := by
  have hsame : ∀ c ∈ s, blankSpace c = id c := by
    intro c hc
    have hne : c ≠ space := fun e => h (e ▸ hc)
    exact if_neg hne
  calc s.map blankSpace
      = s.map id := List.map_congr_left hsame
    _ = s := List.map_id s

theorem wordsEffect_two {x uri version : Bytes} {u v : Nat} (hu : cString (x.drop u) = uri) (hne : uri ≠ [])
    (hv : cString (x.drop v) = version) : wordsEffect x (some u) (some v) =
      versionEffect (httppStrToMethod (cString x)) (uriPath uri) version (uriCalls uri) := by
  unfold wordsEffect
  dsimp only
  rw [hu, hv, if_neg hne]

theorem wordsEffect_one (x : Bytes) (uri : Option Nat) : (wordsEffect x uri none).accepted = false := by
  unfold wordsEffect
  cases uri with
  | none => rfl
  | some u =>
    dsimp only
    by_cases hempty : cString (x.drop u) = []
    · rw [if_pos hempty]
    · rw [if_neg hempty]

namespace ThreeWords
variable {l : ThreeWords} {s : Bytes}

/-- The version as it is read when `rest` lies behind the words: a space ends it. -/
def read (l : ThreeWords) (rest : Bytes) : Bytes := if l.trailing = 0 then l.version ++ rest else l.version

theorem map_spaces (n : Nat) : (spaces n).map blankSpace = List.replicate n nul := by
  rw [spaces, List.map_replicate]
  rfl

theorem cutWords_eq (h : l.text = s.take (scanned s)) :
    cutWords s = l.method ++ nul :: (List.replicate l.between nul ++ (l.uri ++ nul ::
      (List.replicate l.behind nul ++ (l.version ++ (List.replicate l.trailing nul ++ s.drop (scanned s)))))) := by
  have hspace : blankSpace space = nul := if_pos rfl
  rw [cutWords, ← h, text, front]
  simp only [List.map_append, List.map_cons, hspace, map_spaces, map_blankSpace l.method_noSpace,
    map_blankSpace l.uri_noSpace, map_blankSpace l.version_noSpace, List.append_assoc, List.cons_append]

/-- The words of a line are free of NULs. -/
theorem plain (h : l.text = s.take (scanned s)) (hs : nul ∉ s) :
    nul ∉ l.method ∧ nul ∉ l.uri ∧ nul ∉ l.version := by
  have hplain : nul ∉ l.text := by
    rw [h]
    exact fun hm => hs (List.mem_of_mem_take hm)
  simp only [text, front, List.mem_append, List.mem_cons, not_or] at hplain
  exact ⟨hplain.1.1, hplain.1.2.2.2.1, hplain.2.1⟩

theorem cString_version (h : l.text = s.take (scanned s)) (hs : nul ∉ s) :
    cString (l.version ++ (List.replicate l.trailing nul ++ s.drop (scanned s))) =
      l.read (s.drop (scanned s)) := by
  have hversion := (plain h hs).2.2
  rw [read]
  by_cases htrailing : l.trailing = 0
  · rw [if_pos htrailing, htrailing, List.replicate_zero, List.nil_append, cString_of_plain]
    rw [List.mem_append, not_or]
    exact ⟨hversion, fun hm => hs (List.mem_of_mem_drop hm)⟩
  · obtain ⟨n, hn⟩ := Nat.exists_eq_succ_of_ne_zero htrailing
    rw [if_neg htrailing, hn, List.replicate_succ, List.cons_append, cString_append_nul,
      cString_of_plain hversion]

/-- What follows from a line whose front is three words. -/
theorem effect (h : l.text = s.take (scanned s)) (hs : nul ∉ s) :
    requestEffect s = versionEffect (httppStrToMethod l.method) (uriPath l.uri)
      (l.read (s.drop (scanned s))) (uriCalls l.uri) := by
  obtain ⟨hmethod, huri, _⟩ := plain h hs
  have hwords : lineWords s = [l.method.length + 1 + l.between, l.front.length] := by
    rw [lineWords, ← h, l.wordStarts_text]
  have hcut := cutWords_eq h
  have hstring : cString (cutWords s) = l.method := by
    rw [hcut, cString_append_nul, cString_of_plain hmethod]
  have hdrop : (cutWords s).drop (l.method.length + 1 + l.between) = l.uri ++ nul ::
      (List.replicate l.behind nul ++ (l.version ++ (List.replicate l.trailing nul ++ s.drop (scanned s)))) := by
    rw [hcut, Nat.add_assoc, ← List.drop_drop, List.drop_left, Nat.add_comm 1, List.drop_succ_cons]
    exact List.drop_left' (List.length_replicate ..)
  have hsecond : cString ((cutWords s).drop (l.method.length + 1 + l.between)) = l.uri := by
    rw [hdrop, cString_append_nul, cString_of_plain huri]
  have hthird : cString ((cutWords s).drop l.front.length) = l.read (s.drop (scanned s)) := by
    have hrest : (cutWords s).drop l.front.length =
        l.version ++ (List.replicate l.trailing nul ++ s.drop (scanned s)) := by
      rw [l.front_length, ← List.drop_drop, hdrop, Nat.add_assoc, ← List.drop_drop, List.drop_left,
        Nat.add_comm 1, List.drop_succ_cons]
      exact List.drop_left' (List.length_replicate ..)
    rw [hrest, cString_version h hs]
  have hfew : ¬ (lineWords s).length ≥ 3 := by
    rw [hwords]
    simp
  rw [requestEffect, if_neg hfew, hwords]
  calc wordsEffect (cutWords s) (some (l.method.length + 1 + l.between)) (some l.front.length)
      = versionEffect (httppStrToMethod (cString (cutWords s))) (uriPath l.uri)
          (l.read (s.drop (scanned s))) (uriCalls l.uri) := wordsEffect_two hsecond l.uri_ne hthird
    _ = _ := by rw [hstring]

/-- A scan that stops before the version does not accept. -/
theorem rejected_short (h : l.text = s) (hlong : scanned s ≤ l.front.length) :
    (requestEffect s).accepted = false := by
  have hsecond : ¬ l.front.length < 0 + scanned s := by omega
  have hnone : [l.front.length].filter (· < 0 + scanned s) = [] := by
    rw [List.filter_cons, if_neg (by simpa using hsecond), List.filter_nil]
  have hone : (lineWords s)[1]? = none := by
    rw [lineWords, wordStarts_take, ← h, l.wordStarts_text, h, List.filter_cons, hnone]
    split <;> rfl
  have hfew : ¬ (lineWords s).length ≥ 3 := by
    have := List.getElem?_eq_none_iff.mp hone
    omega
  rw [requestEffect, if_neg hfew, hone, wordsEffect_one]

/-- Where the scan comes past the start of the version, what it looks at is three words with
the same method and URI, and the version is read with what is behind it or up to a space. -/
theorem exists_taken (h : l.text = s) (hshort : l.front.length < scanned s) :
    ∃ l' : ThreeWords, l'.text = s.take (scanned s) ∧ l'.method = l.method ∧ l'.uri = l.uri ∧
      (l'.read (s.drop (scanned s)) = l.version ++ spaces l.trailing ∨
        l'.read (s.drop (scanned s)) = l.version) := by
  obtain ⟨j, hj⟩ := Nat.exists_eq_add_of_le (Nat.le_of_lt hshort)
  have hle : scanned s ≤ s.length := scanned_le s
  have htake : s.take (scanned s) = l.front ++ (l.version ++ spaces l.trailing).take j := by
    rw [hj]
    conv_lhs => rw [← h, text]
    exact List.take_length_add_append ..
  have hdrop : s.drop (scanned s) = (l.version ++ spaces l.trailing).drop j := by
    rw [hj]
    conv_lhs => rw [← h, text]
    exact List.drop_length_add_append ..
  by_cases hinside : j ≤ l.version.length
  · -- the scan stops in the version or at its end
    rw [List.take_append_of_le_length hinside] at htake
    rw [List.drop_append_of_le_length hinside] at hdrop
    have hne : l.version.take j ≠ [] := by
      intro hnil
      rcases List.take_eq_nil_iff.mp hnil with hzero | hnil
      · omega
      · exact l.version_ne hnil
    have hspace : space ∉ l.version.take j := fun hm => l.version_noSpace (List.mem_of_mem_take hm)
    refine ⟨l.withVersion (l.version.take j) 0 hne hspace, ?_, rfl, rfl, Or.inl ?_⟩
    · rw [htake, text]
      simp [withVersion, front, spaces]
    · calc (l.withVersion (l.version.take j) 0 hne hspace).read (s.drop (scanned s))
          = l.version.take j ++ s.drop (scanned s) := if_pos rfl
        _ = l.version ++ spaces l.trailing := by rw [hdrop, ← List.append_assoc, List.take_append_drop]
  · -- the scan stops behind the version
    obtain ⟨i, hi⟩ := Nat.exists_eq_add_of_lt (Nat.lt_of_not_le hinside)
    have hlength : s.length = l.front.length + (l.version.length + l.trailing) := by
      rw [← h, text]
      simp [spaces]
    have hfront : (l.version ++ spaces l.trailing).take j = l.version ++ spaces (i + 1) := by
      have hmin : min (i + 1) l.trailing = i + 1 := by omega
      rw [hi, Nat.add_assoc, List.take_length_add_append, spaces, List.take_replicate, hmin, ← spaces]
    refine ⟨l.withVersion l.version (i + 1) l.version_ne l.version_noSpace, ?_, rfl, rfl, Or.inr ?_⟩
    · rw [htake, hfront]
      rfl
    · exact if_neg (Nat.succ_ne_zero i)

end ThreeWords

end IcecastCommon.Httpp
