import IcecastCommon.Log.Emitted

/- A length given to `%s`. The loop looks at the next byte before it looks at the length, and
   a length of 0 counts as none, so a string of that many bytes is read behind its end unless
   a NUL or the end of the buffer comes first. -/
namespace IcecastCommon.Log
open Encoding (Bytes nul cString)
open Httpp (percent)

/-- `n` rounds of the loop over the format, where it comes to as many. -/
def formatRounds (cap : Nat) (format : Bytes) : Nat → Nat → Printer → Option (Nat × Printer)
  | 0, i, s => some (i, s)
  | n + 1, i, s => do
    let c ← format[i]?
    if c = nul ∨ s.size = 0 then none
    else do
      let (i, s) ← formatChar cap format i c s
      formatRounds cap format n (i + 1) s

/-- The loop goes on from where its first rounds come to. -/
theorem formatLoop_rounds {cap : Nat} {format : Bytes} {n i j : Nat} {s s' : Printer} (fuel : Nat)
    (h : formatRounds cap format n i s = some (j, s')) :
    formatLoop cap format (n + fuel) i s = formatLoop cap format fuel j s' := by
  induction n generalizing i s with
  | zero =>
    cases h
    rw [Nat.zero_add]
  | succ n ih =>
    have hfuel : n + 1 + fuel = n + fuel + 1 := by omega
    rw [hfuel, formatLoop]
    rw [formatRounds] at h
    cases hc : format[i]? with
    | none =>
      rw [hc] at h
      cases h
    | some c =>
      rw [hc, Option.bind_eq_bind, Option.bind_some] at h
      rw [Option.bind_eq_bind, Option.bind_some]
      by_cases hend : c = nul ∨ s.size = 0
      · rw [if_pos hend] at h
        cases h
      · rw [if_neg hend] at h
        rw [if_neg hend]
        cases hchar : formatChar cap format i c s with
        | none =>
          rw [hchar] at h
          cases h
        | some r =>
          rw [hchar] at h
          exact ih h

/-! A conversion with a length. -/

/-- A character of a block that takes no argument and sets no length. -/
def Quiet (c : UInt8) : Prop :=
  c ≠ nul ∧ (directive c = .long ∨ directive c = .size ∨ directive c = .dot ∨ directive c = .space ∨
    directive c = .alt ∨ directive c = .other)

/-- The same but for the flags. -/
structure SameBlock (s s' : Printer) : Prop where
  out : s'.out = s.out
  size : s'.size = s.size
  inBlock : s'.inBlock = s.inBlock
  blockLen : s'.blockLen = s.blockLen
  args : s'.args = s.args

section
variable {format : Bytes} {i : Nat} {s : Printer} {c : UInt8} {rest : Bytes}

theorem getElem?_of_drop (h : format.drop i = c :: rest) : format[i]? = some c ∧ format.drop (i + 1) = rest := by
  constructor
  · rw [← Nat.add_zero i, ← List.getElem?_drop, h, List.getElem?_cons_zero]
  · rw [← List.drop_drop, h, List.drop_succ_cons, List.drop_zero]

theorem formatRounds_cons (cap : Nat) (h : format.drop i = c :: rest) (hc : c ≠ nul) (hsize : s.size ≠ 0)
    (n : Nat) :
    formatRounds cap format (n + 1) i s =
      (formatChar cap format i c s).bind fun r => formatRounds cap format n (r.1 + 1) r.2 := by
  rw [formatRounds, (getElem?_of_drop h).1, Option.bind_eq_bind, Option.bind_some,
    if_neg fun hend => hend.elim hc hsize]
  rfl

theorem Quiet.round (cap : Nat) (format : Bytes) (i : Nat) (hquiet : Quiet c) (hblock : s.inBlock = true) :
    ∃ s', formatChar cap format i c s = some (i, s') ∧ SameBlock s s' := by
  have hchar : formatChar cap format i c s = formatBlock cap format i c s := by
    rw [formatChar, if_neg (by rw [hblock]; decide)]
  rw [hchar, formatBlock]
  rcases hquiet.2 with h | h | h | h | h | h <;> rw [h] <;> exact ⟨_, rfl, rfl, rfl, rfl, rfl, rfl⟩

/-- Quiet characters leave all but the flags. -/
theorem quiet_rounds (cap : Nat) {quiet : Bytes} (hquiet : ∀ c ∈ quiet, Quiet c)
    (h : format.drop i = quiet ++ rest) (hsize : s.size ≠ 0) (hblock : s.inBlock = true) :
    ∃ s', SameBlock s s' ∧ format.drop (i + quiet.length) = rest ∧ ∀ n,
      formatRounds cap format (quiet.length + n) i s = formatRounds cap format n (i + quiet.length) s' := by
  induction quiet generalizing i s with
  | nil => exact ⟨s, ⟨rfl, rfl, rfl, rfl, rfl⟩, h, fun n => by rw [List.length_nil, Nat.zero_add, Nat.add_zero]⟩
  | cons c quiet ih =>
    have hc := hquiet c List.mem_cons_self
    obtain ⟨s₁, e₁, S₁⟩ := hc.round cap format i hblock
    obtain ⟨s', S', hdrop, hrounds⟩ := ih (fun d hd => hquiet d (List.mem_cons_of_mem c hd))
      (getElem?_of_drop h).2 (by rw [S₁.size]; exact hsize) (by rw [S₁.inBlock]; exact hblock)
    have hindex : i + (c :: quiet).length = i + 1 + quiet.length := by
      rw [List.length_cons]
      omega
    refine ⟨s', ⟨S'.out.trans S₁.out, S'.size.trans S₁.size, S'.inBlock.trans S₁.inBlock,
      S'.blockLen.trans S₁.blockLen, S'.args.trans S₁.args⟩, by rw [hindex, hdrop], ?_⟩
    intro n
    have hlength : (c :: quiet).length + n = quiet.length + n + 1 := by
      rw [List.length_cons]
      omega
    rw [hlength, formatRounds_cons cap h hc.1 hsize, e₁, Option.bind_some, hrounds, hindex]

end

/-- `%*s` and `%.*s`, with other characters in between. -/
def starConversion (pre post : Bytes) : Bytes := percent :: (pre ++ asterisk :: (post ++ [letterS]))

section
variable {s : Printer} {pre post : Bytes}

theorem starConversion_length (pre post : Bytes) :
    (starConversion pre post).length = pre.length + (post.length + (0 + 1) + 1) + 1 := by
  simp only [starConversion, List.length_cons, List.length_append, List.length_nil]

/-- The rounds of such a conversion come down to the conversion of the string with the length. -/
theorem starConversion_rounds (cap : Nat) (hpre : ∀ c ∈ pre, Quiet c) (hpost : ∀ c ∈ post, Quiet c)
    (hsize : s.size ≠ 0) (hblock : s.inBlock = false) (before after : Bytes) (value : BitVec 32) (arg : Option Bytes)
    (args : List Arg) :
    ∃ s₁ : Printer, s₁.out = s.out ∧ s₁.size = s.size ∧ s₁.blockLen = value ∧
      formatRounds cap (before ++ starConversion pre post ++ after) (starConversion pre post).length before.length
        { s with args := .int value :: .string arg :: args } =
      (formatString cap letterS arg s₁).map ((before ++ starConversion pre post).length, ·) := by
  have hdrop : (before ++ starConversion pre post ++ after).drop before.length =
      percent :: (pre ++ (asterisk :: (post ++ letterS :: after))) := by
    rw [List.append_assoc, List.drop_left, starConversion]
    simp
  have hpercent : formatChar cap (before ++ starConversion pre post ++ after) before.length percent
      { s with args := .int value :: .string arg :: args } =
      some (before.length, { s with inBlock := true, blockSize := 0, blockLen := 0, blockSpace := false,
                                    blockAlt := false, args := .int value :: .string arg :: args }) := by
    rw [formatChar, if_pos hblock, if_pos rfl]
  have hfirst := (getElem?_of_drop hdrop).2
  have hstart := formatRounds_cons cap (s := { s with args := .int value :: .string arg :: args }) hdrop (by decide)
    hsize
  -- up to the star
  obtain ⟨s₂, S₂, hdrop₂, hrounds₂⟩ := quiet_rounds cap hpre hfirst (s := { s with
    inBlock := true, blockSize := 0, blockLen := 0, blockSpace := false, blockAlt := false,
    args := .int value :: .string arg :: args }) hsize rfl
  have hblock₂ : s₂.inBlock = true := S₂.inBlock
  have hsize₂ : s₂.size ≠ 0 := by
    rw [S₂.size]
    exact hsize
  have hstar : formatChar cap (before ++ starConversion pre post ++ after) (before.length + 1 + pre.length)
      asterisk s₂ = some (before.length + 1 + pre.length,
        { s₂ with blockLen := value, args := .string arg :: args }) := by
    have hdirective : directive asterisk = .star := by decide
    rw [formatChar, if_neg (by rw [hblock₂]; decide), formatBlock, hdirective, S₂.args]
  -- up to the conversion
  obtain ⟨s₃, S₃, hdrop₃, hrounds₃⟩ := quiet_rounds cap hpost (getElem?_of_drop hdrop₂).2
    (s := { s₂ with blockLen := value, args := .string arg :: args }) hsize₂ hblock₂
  have hblock₃ : s₃.inBlock = true := S₃.inBlock.trans hblock₂
  have hsize₃ : s₃.size ≠ 0 := by
    rw [S₃.size]
    exact hsize₂
  have hstring : formatChar cap (before ++ starConversion pre post ++ after)
      (before.length + 1 + pre.length + 1 + post.length) letterS s₃ =
      (formatString cap letterS arg { s₃ with args := args }).map
        ((before.length + 1 + pre.length + 1 + post.length, ·)) := by
    have hdirective : directive letterS = .string := by decide
    rw [formatChar, if_neg (by rw [hblock₃]; decide), formatBlock, hdirective, S₃.args]
  refine ⟨{ s₃ with args := args }, S₃.out.trans S₂.out, S₃.size.trans S₂.size, S₃.blockLen, ?_⟩
  have hend : before.length + 1 + pre.length + 1 + post.length + 1 = (before ++ starConversion pre post).length := by
    rw [List.length_append, starConversion_length]
    omega
  rw [starConversion_length, hstart, hpercent, Option.bind_some, hrounds₂,
    formatRounds_cons cap hdrop₂ (by decide) hsize₂, hstar, Option.bind_some, hrounds₃,
    formatRounds_cons cap hdrop₃ (by decide) hsize₃, hstring]
  cases formatString cap letterS arg { s₃ with args := args } with
  | none => rfl
  | some s' =>
    show some (before.length + 1 + pre.length + 1 + post.length + 1, s') = _
    rw [hend]
    rfl

end

/-- With the length `n`, the conversion writes at most `n` bytes of the argument, and it is
enough that the first `n` bytes of the argument are there. -/
def LengthBounds (cap : Nat) (before pre post after : Bytes) (s : Printer) (n : Nat) (arg : Option Bytes)
    (args : List Arg) : Prop :=
  ∃ s' text, formatRounds cap (before ++ starConversion pre post ++ after) (starConversion pre post).length
      before.length { s with args := .int (BitVec.ofNat 32 n) :: .string (arg.map (·.take n)) :: args } =
      some ((before ++ starConversion pre post).length, s') ∧
    s'.out = s.out ++ text ∧ (arg ≠ none → text.length ≤ n)

/-- `%s` of NULL, with any length. -/
theorem Room.formatNull {cap : Nat} {s : Printer} (R : Room cap s) :
    ∃ s' text, Log.formatString cap letterS none s = some s' ∧ s'.out = s.out ++ text := by
  have hletter : letterS ≠ letterH := by decide
  have hnul : nul ∈ nullText := by decide
  have hfill := fillLen_spec (s := { s with blockAlt := false }) hnul rfl
  generalize lengthFor _ _ = len at hfill
  have R' : Room cap { s with blockAlt := false, blockLen := len } := R
  rw [formatString_orNull (Or.inl hletter), formatString_plain hletter, orNull, Option.getD_none, hfill,
    Option.bind_some, plainLoop_spec R', if_pos (plainEnd_lt hnul _)]
  exact ⟨_, _, rfl, rfl⟩

/-- The loop stops within the first `n` bytes at a NUL, or at the end of the buffer. -/
theorem plainEnd_taken {s : Printer} {n : Nat} (hcount : s.blockLen.toNat = n) {mem : Bytes}
    (hmem : n ≤ mem.length ∨ nul ∈ mem) :
    plainEnd (mem.take n) s < (mem.take n).length ↔ nul ∈ mem.take n ∨ s.size < n := by
  by_cases hnul : nul ∈ mem.take n
  · exact ⟨fun _ => Or.inl hnul, fun _ => plainEnd_lt hnul _⟩
  · have hthere : n ≤ mem.length := by
      by_contra hshort
      rw [List.take_of_length_le (by omega)] at hnul
      exact hmem.elim hshort hnul
    have hend : plainEnd (mem.take n) s = min n (min n s.size) := by
      rw [plainEnd, Encoding.cString_of_plain hnul, List.length_take_of_le hthere, hcount]
    rw [hend, List.length_take_of_le hthere, or_iff_right hnul]
    omega

/-- `%s` of a string of which there are `n` bytes, with the length `n`. -/
theorem Room.formatGiven {cap : Nat} {s : Printer} (R : Room cap s) {n : Nat} (hn : n < 2 ^ 31)
    (hlen : s.blockLen = BitVec.ofNat 32 n) {mem : Bytes} (hmem : n ≤ mem.length ∨ nul ∈ mem) :
    (∃ s' text, Log.formatString cap letterS (some (mem.take n)) s = some s' ∧ s'.out = s.out ++ text ∧
      text.length ≤ n) ↔ 1 ≤ n ∧ (nul ∈ mem.take n ∨ s.size < n) := by
  have hletter : letterS ≠ letterH := by decide
  rw [formatString_plain hletter]
  by_cases hzero : n = 0
  · -- 0 counts as none, and the length of the string is looked for
    have hfill : fillLen (some (mem.take n)) { s with blockAlt := false } = none := by
      have hnone : ({ s with blockAlt := false } : Printer).blockLen = 0 := by
        show s.blockLen = 0
        rw [hlen, hzero]
        rfl
      rw [fillLen, if_pos hnone, hzero, List.take_zero]
      rfl
    rw [hfill]
    constructor
    · rintro ⟨_, _, e, _⟩
      cases e
    · rintro ⟨hone, _⟩
      omega
  · have hnonzero : s.blockLen ≠ 0 := by
      rw [hlen]
      intro e
      have hnat := congrArg BitVec.toNat e
      rw [BitVec.toNat_ofNat, show (0 : BitVec 32).toNat = 0 from rfl] at hnat
      omega
    have hcount : s.blockLen.toNat = n := by
      rw [hlen, BitVec.toNat_ofNat]
      omega
    have hfill : fillLen (some (mem.take n)) { s with blockAlt := false } = some { s with blockAlt := false } :=
      if_neg hnonzero
    have R' : Room cap { s with blockAlt := false } := R
    have htext : ((mem.take n).take (plainEnd (mem.take n) { s with blockAlt := false })).length ≤ n := by
      rw [List.length_take, List.length_take]
      omega
    have hiff : plainEnd (mem.take n) { s with blockAlt := false } < (mem.take n).length ↔
        nul ∈ mem.take n ∨ s.size < n := plainEnd_taken (s := { s with blockAlt := false }) hcount hmem
    rw [hfill, Option.bind_some, plainLoop_spec R', ← hiff]
    by_cases hlt : plainEnd (mem.take n) { s with blockAlt := false } < (mem.take n).length
    · rw [if_pos hlt]
      exact ⟨fun _ => ⟨Nat.pos_of_ne_zero hzero, hlt⟩, fun _ => ⟨_, _, rfl, rfl, htext⟩⟩
    · rw [if_neg hlt]
      constructor
      · rintro ⟨_, _, e, _⟩
        cases e
      · rintro ⟨_, h⟩
        exact absurd h hlt

section
variable {cap : Nat} {s : Printer} {pre post : Bytes}

theorem LengthBounds.iff_format (n : Nat) (arg : Option Bytes) (hpre : ∀ c ∈ pre, Quiet c)
    (hpost : ∀ c ∈ post, Quiet c) (R : Room cap s) (hsize : s.size ≠ 0) (hblock : s.inBlock = false)
    (before after : Bytes) (args : List Arg) :
    ∃ s₁ : Printer, Room cap s₁ ∧ s₁.size = s.size ∧ s₁.blockLen = BitVec.ofNat 32 n ∧
      (LengthBounds cap before pre post after s n arg args ↔
        ∃ s' text, formatString cap letterS (arg.map (·.take n)) s₁ = some s' ∧ s'.out = s₁.out ++ text ∧
          (arg ≠ none → text.length ≤ n)) := by
  obtain ⟨s₁, hout, hsize₁, hlen, hrounds⟩ := starConversion_rounds cap hpre hpost hsize hblock before after
    (BitVec.ofNat 32 n) (arg.map (·.take n)) args
  have R₁ : Room cap s₁ := by
    rw [Room, hout, hsize₁]
    exact R
  refine ⟨s₁, R₁, hsize₁, hlen, ?_⟩
  rw [LengthBounds, hrounds, hout]
  constructor
  · rintro ⟨s', text, e, htext⟩
    obtain ⟨s'', e', hpair⟩ := Option.map_eq_some_iff.mp e
    cases hpair
    exact ⟨s', text, e', htext⟩
  · rintro ⟨s', text, e, htext⟩
    exact ⟨s', text, by rw [e]; rfl, htext⟩

/-- A length bounds what is read and written exactly where it is not 0 and a NUL or the end of
the buffer comes before the byte behind it; NULL is not read in any case. -/
theorem given_length (R : Room cap s) (hsize : s.size ≠ 0) (hblock : s.inBlock = false)
    (hpre : ∀ c ∈ pre, Quiet c) (hpost : ∀ c ∈ post, Quiet c) (before after : Bytes) {n : Nat} (hn : n < 2 ^ 31)
    {arg : Option Bytes} (harg : ∀ mem, arg = some mem → n ≤ mem.length ∨ nul ∈ mem) (args : List Arg) :
    LengthBounds cap before pre post after s n arg args ↔
      ∀ mem, arg = some mem → 1 ≤ n ∧ (nul ∈ mem.take n ∨ s.size < n) := by
  obtain ⟨s₁, R₁, hsize₁, hlen, hiff⟩ := LengthBounds.iff_format n arg hpre hpost R hsize hblock
    before after args
  rw [hiff]
  cases arg with
  | none =>
    obtain ⟨s', text, e, hout⟩ := R₁.formatNull
    refine ⟨fun _ mem h => (Option.some_ne_none mem h.symm).elim, fun _ => ⟨s', text, e, hout, ?_⟩⟩
    exact fun h => absurd rfl h
  | some mem =>
    have hgiven := R₁.formatGiven hn hlen (harg mem rfl)
    rw [hsize₁] at hgiven
    simp only [Option.some.injEq, forall_eq', ne_eq, reduceCtorEq, not_false_iff, true_implies, Option.map_some]
    exact hgiven

end

/-- At the start of a run. -/
def runStart (size : Nat) : Printer :=
  { out := [], size := size, inBlock := false, blockSize := 0, blockLen := 0, blockSpace := false,
    blockAlt := false, args := [] }

/-- `%.*s` with the length 5 of a string of 2 bytes. -/
theorem given_length_terminated : LengthBounds 10 [] [46] [] [0] (runStart 10) 5 (some [97, 98, 0]) [] := by
  have hdot : ∀ c ∈ ([46] : Bytes), Quiet c := by
    intro c hc
    rw [List.mem_singleton.mp hc]
    exact ⟨by decide, Or.inr (Or.inr (Or.inl (by decide)))⟩
  refine (given_length (show Room 10 (runStart 10) from rfl) (by decide) rfl hdot (by simp) [] [0] (by decide)
    ?_ []).mpr ?_
  · intro mem h
    cases h
    exact Or.inr (by decide)
  · intro mem h
    cases h
    exact ⟨by decide, Or.inl (by decide)⟩

/-- `%.*s` with the length 2 of two bytes without a NUL: the byte behind them is read. -/
theorem given_length_fails : ¬ LengthBounds 10 [] [46] [] [0] (runStart 10) 2 (some [97, 98]) [] := by
  have hfault : formatRounds 10 [37, 46, 42, 115, 0] 4 0
      { runStart 10 with args := [.int 2, .string (some [97, 98])] } = none := by rfl
  rintro ⟨s', text, e, _⟩
  cases hfault.symm.trans e

end IcecastCommon.Log
