import IcecastCommon.Log.Emitted

/- The formatter in its buffer. The types of the arguments that a format takes follow from
   its characters alone; with such arguments every round of the loop keeps `str` and `size`
   in step and leaves the format at most at its NUL, where the loop ends. -/
namespace IcecastCommon.Log
open Encoding (Bytes nul)
open Httpp (isDigit percent)

/-! What a format takes. -/

/-- The types of arguments. -/
inductive Kind where
  | int
  | long
  | longLong
  | size
  | pointer
  | string
deriving DecidableEq

/-- An argument of this type. A string ends with a NUL. -/
def Arg.Is : Arg → Kind → Prop
  | .int _, .int => True
  | .long _, .long => True
  | .longLong _, .longLong => True
  | .size _, .size => True
  | .pointer _, .pointer => True
  | .string arg, .string => ∀ memory, arg = some memory → nul ∈ memory
  | _, _ => False

/-- The arguments begin with ones of these types. -/
def Provides : List Arg → List Kind → Prop
  | _, [] => True
  | [], _ :: _ => False
  | arg :: args, kind :: kinds => arg.Is kind ∧ Provides args kinds

/-- The type of a number. -/
def numberKinds (blockSize : BitVec 32) : List Kind :=
  if blockSize = 0 then [.int]
  else if blockSize = 1 then [.long]
  else if blockSize = 2 then [.longLong]
  else if blockSize = 122 then [.size]
  else []

/-- The types of the arguments that a format takes, from within a block or not. -/
def kinds : Bytes → Bool → BitVec 32 → List Kind
  | [], _, _ => []
  | c :: format, false, _ => kinds format (c = percent) 0
  | c :: format, true, blockSize =>
    match directive c with
    | .long => kinds format true (blockSize + 1)
    | .size => kinds format true 122
    | .star => .int :: kinds format true blockSize
    | .pointer => .pointer :: kinds format false 0
    | .number => numberKinds blockSize ++ kinds format false 0
    | .socket => .int :: kinds format false 0
    | .string => .string :: kinds format false 0
    | _ => kinds format true blockSize

theorem Provides.exists_cons {args : List Arg} {kind : Kind} {ks : List Kind} (h : Provides args (kind :: ks)) :
    ∃ arg rest, args = arg :: rest ∧ arg.Is kind ∧ Provides rest ks := by
  cases args with
  | nil => cases h
  | cons arg rest => exact ⟨arg, rest, rfl, h.1, h.2⟩

/-! One round. -/

/-- Between two rounds. -/
structure Going (cap : Nat) (format : Bytes) (i : Nat) (s : Printer) : Prop where
  inside : i ≤ format.length
  room : Room cap s
  args : Provides s.args (kinds (format.drop i) s.inBlock s.blockSize)

theorem snprintf_nul (text : Bytes) : nul ∈ snprintf 80 text := by
  rw [snprintf]
  exact List.mem_append_right _ (List.mem_singleton.mpr rfl)

/-- A number takes the argument of its type. -/
theorem numberText_spec {s : Printer} {ks : List Kind} (c : UInt8)
    (h : Provides s.args (numberKinds s.blockSize ++ ks)) :
    ∃ text args, numberText c s = some (text, { s with args := args }) ∧ Provides args ks := by
  rw [numberKinds] at h
  rw [numberText]
  by_cases h0 : s.blockSize = 0
  · rw [if_pos h0] at h
    obtain ⟨arg, rest, hargs, harg, hrest⟩ := h.exists_cons
    rw [if_pos h0, hargs]
    cases arg with
    | int value => exact ⟨_, rest, rfl, hrest⟩
    | _ => exact harg.elim
  · rw [if_neg h0] at h
    rw [if_neg h0]
    by_cases h1 : s.blockSize = 1
    · rw [if_pos h1] at h
      obtain ⟨arg, rest, hargs, harg, hrest⟩ := h.exists_cons
      rw [if_pos h1, hargs]
      cases arg with
      | long value => exact ⟨_, rest, rfl, hrest⟩
      | _ => exact harg.elim
    · rw [if_neg h1] at h
      rw [if_neg h1]
      by_cases h2 : s.blockSize = 2
      · rw [if_pos h2] at h
        obtain ⟨arg, rest, hargs, harg, hrest⟩ := h.exists_cons
        rw [if_pos h2, hargs]
        cases arg with
        | longLong value => exact ⟨_, rest, rfl, hrest⟩
        | _ => exact harg.elim
      · rw [if_neg h2] at h
        rw [if_neg h2]
        by_cases hz : s.blockSize = 122
        · rw [if_pos hz] at h
          obtain ⟨arg, rest, hargs, harg, hrest⟩ := h.exists_cons
          rw [if_pos hz, hargs]
          cases arg with
          | size value => exact ⟨_, rest, rfl, hrest⟩
          | _ => exact harg.elim
        · rw [if_neg hz] at h
          rw [if_neg hz]
          exact ⟨invalidText, s.args, rfl, h⟩

/-- Digits take no argument. -/
theorem directive_digit {c : UInt8} (h : isDigit c = true) : directive c = .digit ∨ directive c = .other := by
  have hrange : 48 ≤ c ∧ c ≤ 57 := by simpa [isDigit] using h
  have hne : ∀ d, d < 48 ∨ 57 < d → c ≠ d := by
    intro d hd e
    subst e
    rcases hd with hd | hd
    · exact absurd hrange.1 (by simpa using hd)
    · exact absurd hrange.2 (by simpa using hd)
  have hletters : ¬ (c = letterD ∨ c = letterI ∨ c = letterU) := by
    rintro (e | e | e) <;> exact hne _ (Or.inr (by decide)) e
  have hstrings : ¬ (c = letterS ∨ c = letterH) := by
    rintro (e | e) <;> exact hne _ (Or.inr (by decide)) e
  rw [directive, if_neg (hne _ (Or.inr (by decide))), if_neg (hne _ (Or.inr (by decide))),
    if_neg (hne _ (Or.inl (by decide))), if_neg (hne _ (Or.inl (by decide))), if_neg (hne _ (Or.inl (by decide))),
    if_neg (hne _ (Or.inl (by decide))), if_neg (hne letterP (Or.inr (by decide))), if_neg hletters,
    if_neg (hne _ (Or.inr (by decide))), if_neg hstrings]
  by_cases hdigit : 49 ≤ c ∧ c ≤ 57
  · exact Or.inl (if_pos hdigit)
  · exact Or.inr (if_neg hdigit)

theorem ite_ne {p : Prop} [Decidable p] {a b d : Directive} (ha : a ≠ d) (hb : b ≠ d) :
    (if p then a else b) ≠ d := by
  by_cases h : p
  · rwa [if_pos h]
  · rwa [if_neg h]

theorem isDigit_of_directive {c : UInt8} (h : directive c = .digit) : isDigit c = true := by
  rw [directive] at h
  by_cases hdigit : 49 ≤ c ∧ c ≤ 57
  · have hlow : 48 ≤ c := UInt8.le_trans (by decide) hdigit.1
    simp [isDigit, hlow, hdigit.2]
  · rw [if_neg hdigit] at h
    -- no other case is that of a digit
    refine absurd h ?_
    repeat' apply ite_ne
    all_goals decide

theorem kinds_outside (format : Bytes) (blockSize : BitVec 32) :
    kinds format false blockSize = kinds format false 0 := by
  cases format <;> rfl

theorem kinds_digit {c : UInt8} (h : isDigit c = true) (format : Bytes) (blockSize : BitVec 32) :
    kinds (c :: format) true blockSize = kinds format true blockSize := by
  rcases directive_digit h with hd | hd <;> rw [kinds, hd]

theorem getElem?_memory {format : Bytes} {i : Nat} (h : i ≤ format.length) :
    (i = format.length ∧ (format ++ [nul])[i]? = some nul) ∨
      ∃ c, format[i]? = some c ∧ (format ++ [nul])[i]? = some c ∧ i < format.length ∧
        format.drop i = c :: format.drop (i + 1) := by
  rcases Nat.lt_or_eq_of_le h with hlt | rfl
  · right
    have hc := List.getElem?_eq_getElem hlt
    refine ⟨format[i], hc, ?_, hlt, (List.cons_getElem_drop_succ ..).symm⟩
    rw [List.getElem?_append_left hlt, hc]
  · left
    exact ⟨rfl, by simp⟩

theorem skipDigits_spec {format : Bytes} (fuel : Nat) {i : Nat} (hi : i ≤ format.length)
    (hfuel : format.length - i < fuel) :
    ∃ j, skipDigits (format ++ [nul]) fuel i = some j ∧ i ≤ j ∧ j ≤ format.length ∧
      ∀ blockSize, kinds (format.drop j) true blockSize = kinds (format.drop i) true blockSize := by
  induction fuel generalizing i with
  | zero => omega
  | succ fuel ih =>
    rw [skipDigits, Option.bind_eq_bind]
    rcases getElem?_memory hi with ⟨_, hnul⟩ | ⟨c, _, hc, hlt, hdrop⟩
    · have hno : ¬ isDigit nul = true := by decide
      rw [hnul, Option.bind_some, if_neg hno]
      exact ⟨i, rfl, Nat.le_refl i, hi, fun _ => rfl⟩
    · rw [hc, Option.bind_some]
      by_cases hdigit : isDigit c = true
      · obtain ⟨j, e, hij, hj, hkinds⟩ := ih hlt (by omega)
        rw [if_pos hdigit]
        refine ⟨j, e, by omega, hj, ?_⟩
        intro blockSize
        rw [hkinds, hdrop, kinds_digit hdigit]
      · rw [if_neg hdigit]
        exact ⟨i, rfl, Nat.le_refl i, hi, fun _ => rfl⟩

section
variable {cap : Nat} {format : Bytes} {i : Nat} {s : Printer} {c : UInt8}

/-- A round that converts a string. -/
theorem formatted (R : Room cap s) {arg : Option Bytes} (hnul : ∀ mem, arg = some mem → nul ∈ mem)
    (hi : i < format.length) (hargs : Provides s.args (kinds (format.drop (i + 1)) false 0)) :
    ∃ j s', (formatString cap c arg s).map ((i, ·)) = some (j, s') ∧ i ≤ j ∧ Going cap format (j + 1) s' := by
  obtain ⟨s', e, R', hblock, hrest⟩ := R.formatString c hnul
  refine ⟨i, s', by rw [e]; rfl, Nat.le_refl i, hi, R', ?_⟩
  have hkinds : kinds (format.drop (i + 1)) s'.inBlock s'.blockSize = kinds (format.drop (i + 1)) false 0 := by
    rw [hblock, kinds_outside]
  rw [hkinds, hrest]
  exact hargs

/-- A round in a block. -/
theorem Going.block (G : Going cap format i s) (hi : i < format.length)
    (hc : (format ++ [nul])[i]? = some c) (hdrop : format.drop i = c :: format.drop (i + 1))
    (hblock : s.inBlock = true) :
    ∃ j s', formatBlock cap (format ++ [nul]) i c s = some (j, s') ∧ i ≤ j ∧ Going cap format (j + 1) s' := by
  obtain ⟨_, R, hargs⟩ := G
  rw [hdrop, hblock, kinds] at hargs
  -- most characters change a flag only
  have hflag : ∀ s', Room cap s' → s'.inBlock = true →
      Provides s'.args (kinds (format.drop (i + 1)) true s'.blockSize) →
      ∃ j s'', some (i, s') = some (j, s'') ∧ i ≤ j ∧ Going cap format (j + 1) s'' := by
    intro s' R' hblock' h
    exact ⟨i, s', rfl, Nat.le_refl i, hi, R', by rw [hblock']; exact h⟩
  rw [formatBlock]
  cases hd : directive c with
  | long =>
    rw [hd] at hargs
    exact hflag _ R hblock hargs
  | size =>
    rw [hd] at hargs
    exact hflag _ R hblock hargs
  | dot =>
    rw [hd] at hargs
    exact hflag _ R hblock hargs
  | space =>
    rw [hd] at hargs
    exact hflag _ R hblock hargs
  | alt =>
    rw [hd] at hargs
    exact hflag _ R hblock hargs
  | other =>
    rw [hd] at hargs
    exact hflag _ R hblock hargs
  | star =>
    rw [hd] at hargs
    obtain ⟨arg, rest, hcons, harg, hrest⟩ := hargs.exists_cons
    rw [hcons]
    cases arg with
    | int value => exact hflag _ R hblock hrest
    | _ => exact harg.elim
  | digit =>
    have hdigit := isDigit_of_directive hd
    rw [hd] at hargs
    obtain ⟨j, e, hij, hj, hkinds⟩ := skipDigits_spec (format ++ [nul]).length hi
      (by rw [List.length_append, List.length_singleton]; omega)
    have hstart : skipDigits (format ++ [nul]) ((format ++ [nul]).length + 1) i = some j := by
      rw [skipDigits, hc, Option.bind_eq_bind, Option.bind_some, if_pos hdigit, e]
    have hback : j - 1 + 1 = j := by omega
    dsimp only
    rw [hstart, Option.bind_eq_bind, Option.bind_some]
    refine ⟨j - 1, _, rfl, by omega, ?_⟩
    rw [hback]
    refine ⟨hj, R, ?_⟩
    rw [hblock, hkinds]
    exact hargs
  | pointer =>
    rw [hd] at hargs
    obtain ⟨arg, rest, hcons, harg, hrest⟩ := hargs.exists_cons
    rw [hcons]
    cases arg with
    | pointer text =>
      apply formatted (s := { s with args := rest }) R ?_ hi hrest
      intro memory h
      cases h
      exact snprintf_nul text
    | _ => exact harg.elim
  | number =>
    rw [hd] at hargs
    obtain ⟨text, rest, e, hrest⟩ := numberText_spec c hargs
    rw [e]
    apply formatted (s := { s with args := rest }) R ?_ hi hrest
    intro memory h
    cases h
    exact snprintf_nul text
  | socket =>
    rw [hd] at hargs
    obtain ⟨arg, rest, hcons, harg, hrest⟩ := hargs.exists_cons
    rw [hcons]
    cases arg with
    | int sock =>
      apply formatted (s := { s with args := rest }) R ?_ hi hrest
      intro memory h
      cases h
      exact snprintf_nul (socketText sock)
    | _ => exact harg.elim
  | string =>
    rw [hd] at hargs
    obtain ⟨arg, rest, hcons, harg, hrest⟩ := hargs.exists_cons
    rw [hcons]
    cases arg with
    | string arg => exact formatted (s := { s with args := rest }) R harg hi hrest
    | _ => exact harg.elim

theorem Going.round (G : Going cap format i s) (hi : i < format.length)
    (hc : (format ++ [nul])[i]? = some c) (hdrop : format.drop i = c :: format.drop (i + 1)) (hsize : s.size ≠ 0) :
    ∃ j s', formatChar cap (format ++ [nul]) i c s = some (j, s') ∧ i ≤ j ∧ Going cap format (j + 1) s' := by
  rw [formatChar]
  cases hblock : s.inBlock with
  | true => exact G.block hi hc hdrop hblock
  | false =>
    obtain ⟨_, R, hargs⟩ := G
    rw [hdrop, hblock, kinds] at hargs
    rw [if_pos rfl]
    by_cases hpercent : c = percent
    · rw [if_pos hpercent]
      rw [decide_eq_true hpercent] at hargs
      exact ⟨i, _, rfl, Nat.le_refl i, hi, R, hargs⟩
    · have hone : 1 ≤ s.size := Nat.pos_of_ne_zero hsize
      have hcap : s.out.length + s.size = cap := R
      have hstore : put cap c s = some { s with out := s.out ++ [c] } := R.put c hsize
      have htake : shrink 1 { s with out := s.out ++ [c] } = some { s with out := s.out ++ [c], size := s.size - 1 } :=
        if_pos hone
      rw [if_neg hpercent, Option.bind_eq_bind, hstore, Option.bind_some, htake]
      rw [decide_eq_false hpercent] at hargs
      refine ⟨i, _, rfl, Nat.le_refl i, hi, ?_, ?_⟩
      · rw [Room, List.length_append, List.length_singleton]
        dsimp only
        omega
      · dsimp only
        rw [hblock, kinds_outside]
        exact hargs

end

/-! Whole runs. -/

theorem formatLoop_spec {cap : Nat} {format : Bytes} (hplain : nul ∉ format) (fuel : Nat) {i : Nat} {s : Printer}
    (G : Going cap format i s) (hfuel : format.length - i < fuel) :
    ∃ s', formatLoop cap (format ++ [nul]) fuel i s = some s' ∧ Room cap s' := by
  -- on the fuel; every round goes forward in the format
  induction fuel generalizing i s with
  | zero => omega
  | succ fuel ih =>
    rw [formatLoop, Option.bind_eq_bind]
    rcases getElem?_memory G.inside with ⟨_, hnul⟩ | ⟨c, hmem, hc, hlt, hdrop⟩
    · rw [hnul, Option.bind_some, if_pos (Or.inl rfl)]
      exact ⟨s, rfl, G.room⟩
    · rw [hc, Option.bind_some]
      have hnul : c ≠ nul := fun e => hplain (e ▸ List.mem_of_getElem? hmem)
      by_cases hsize : s.size = 0
      · rw [if_pos (Or.inr hsize)]
        exact ⟨s, rfl, G.room⟩
      · obtain ⟨j, s', e, hij, G'⟩ := G.round hlt hc hdrop hsize
        rw [if_neg fun h => h.elim hnul hsize, Option.bind_eq_bind, e, Option.bind_some]
        exact ih G' (by omega)

/-- The last NUL is put into the buffer. -/
theorem finish_spec {cap : Nat} {s : Printer} (R : Room cap s) (h : 1 ≤ cap) :
    ∃ text, finish cap s = some (text ++ [nul]) ∧ text.length < cap := by
  rw [Room] at R
  rw [finish]
  by_cases hsize : s.size = 0
  · have hout : s.out ≠ [] := by
      intro hnil
      rw [hnil, List.length_nil] at R
      omega
    rw [if_pos hsize, if_pos ⟨hout, by omega⟩]
    refine ⟨s.out.dropLast, rfl, ?_⟩
    rw [List.length_dropLast]
    omega
  · rw [if_neg hsize, if_pos (by omega)]
    exact ⟨s.out, rfl, by omega⟩

/-- With a buffer of at least one byte, a format that ends with a NUL and arguments of the
types that the format takes, `__vsnprintf` comes to its end without a fault, and leaves a
NUL behind a text that is shorter than the buffer. -/
theorem vsnprintf_in_bounds (size : Nat) (hsize : 1 ≤ size) (format : Bytes) (hplain : nul ∉ format)
    (args : List Arg) (hargs : Provides args (kinds format false 0)) :
    ∃ text, vsnprintf size (format ++ [nul]) args = some (text ++ [nul]) ∧ text.length < size := by
  rw [vsnprintf, Option.bind_eq_bind]
  have G : Going size format 0
      { out := [], size := size, inBlock := false, blockSize := 0, blockLen := 0, blockSpace := false,
        blockAlt := false, args := args } := ⟨Nat.zero_le _, Nat.zero_add size, hargs⟩
  obtain ⟨s', e, R⟩ := formatLoop_spec hplain ((format ++ [nul]).length + 1) G
    (by rw [List.length_append]; omega)
  rw [e, Option.bind_some]
  exact finish_spec R hsize

/-- `%*H|%s` with a negative length and NULL. -/
theorem vsnprintf_in_bounds_null :
    ∃ text, vsnprintf 9 [37, 42, 72, 124, 37, 115, 0] [.int (-2), .string (some [34, 0]), .string none] =
      some (text ++ [nul]) ∧ text.length < 9 := by
  refine vsnprintf_in_bounds 9 (by decide) [37, 42, 72, 124, 37, 115] (by decide) _ ?_
  refine ⟨trivial, ?_, ?_, ?_⟩
  · intro memory h
    cases h
    decide
  · intro memory h
    cases h
  · trivial

end IcecastCommon.Log
