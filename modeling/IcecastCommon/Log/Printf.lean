import IcecastCommon.Log.Escaped
import IcecastCommon.Log.FormatBounds
import IcecastCommon.Log.Items

/- `__vsnprintf` beside the `vsnprintf` of C. A `'%'` in a block is no case of the `switch`,
   so a `%%` opens a block and leaves it open: its `'%'` is lost, and what follows is read as
   flags. No run writes a `'%'` that is not in an argument, so a format with `%%` never gives
   the text of C. -/
namespace IcecastCommon.Log
open Encoding (Bytes nul backslash hexChar cString)
open Httpp (percent)

/-! Where a `'%'` comes from. -/

/-- How often an argument has `'%'` in what may be printed of it. -/
def Arg.percents : Arg → Nat
  | .string arg => (cString (orNull arg)).count percent
  | .pointer text => text.count percent
  | _ => 0

def percents (args : List Arg) : Nat := (args.map Arg.percents).sum

/-- Strings end with a NUL. -/
def Terminated (args : List Arg) : Prop := ∀ memory, .string (some memory) ∈ args → nul ∈ memory

theorem percent_not_hex : ∀ d < 16, hexChar d ≠ percent := by decide

theorem count_escapeChunk (allowSpace : Bool) (c : UInt8) (size : Nat) (len : BitVec 32) :
    (escapeChunk allowSpace c size len).count percent ≤ [c].count percent := by
  rw [escapeChunk]
  by_cases hprint : isPrint c allowSpace = true
  · rw [if_pos hprint]
  · obtain ⟨hhigh, hlow⟩ := nibbles_lt c
    have hnone : ∀ text : Bytes, percent ∉ text → text.count percent ≤ [c].count percent := by
      intro text htext
      rw [List.count_eq_zero_of_not_mem htext]
      exact Nat.zero_le _
    rw [if_neg hprint]
    by_cases hroom : size < 4 ∨ len.toInt < 4
    · rw [if_pos hroom]
      exact hnone _ (by decide)
    · rw [if_neg hroom]
      apply hnone
      have hslash : percent ≠ backslash := by decide
      have hletter : percent ≠ letterX := by decide
      simp [hslash, hletter, (percent_not_hex _ hhigh).symm, (percent_not_hex _ hlow).symm]

theorem count_escapeText (allowSpace : Bool) (arg : Bytes) (size : Nat) (len : BitVec 32) :
    (escapeText allowSpace arg size len).count percent ≤ (cString arg).count percent := by
  induction arg generalizing size len with
  | nil => exact Nat.zero_le _
  | cons c arg ih =>
    rw [escapeText]
    by_cases h : c ≠ nul ∧ len ≠ 0 ∧ size ≠ 0
    · have hstring : cString (c :: arg) = [c] ++ cString arg := List.takeWhile_cons_of_pos (by simpa using h.1)
      rw [if_pos h, hstring, List.count_append, List.count_append]
      exact Nat.add_le_add (count_escapeChunk allowSpace c size len) (ih ..)
    · rw [if_neg h]
      exact Nat.zero_le _

theorem count_quoteText (alt : Bool) (size : Nat) (len : BitVec 32) : (quoteText alt size len).count percent = 0 := by
  rw [quoteText, single]
  split
  · split <;> decide
  · rfl

theorem count_quotedText (alt allowSpace : Bool) (arg : Bytes) (size : Nat) (len : BitVec 32) :
    (quotedText alt allowSpace arg size len).count percent ≤ (cString arg).count percent := by
  rw [quotedText, List.count_append, List.count_append, count_quoteText, count_quoteText, Nat.zero_add, Nat.add_zero]
  exact count_escapeText ..

theorem count_plain (arg : Bytes) (s : Printer) :
    (arg.take (plainEnd arg s)).count percent ≤ (cString arg).count percent := by
  have hprefix : arg.take (plainEnd arg s) <+: cString arg := by
    apply List.prefix_of_prefix_length_le (List.take_prefix _ _) (List.takeWhile_prefix _)
    rw [List.length_take]
    exact (Nat.min_le_left _ _).trans (Nat.min_le_left _ _)
  exact hprefix.sublist.count_le _

/-- A conversion writes no `'%'` that is not in its argument. -/
theorem Room.formatCount {cap : Nat} {s : Printer} (R : Room cap s) (c : UInt8) {arg : Option Bytes}
    (hnul : ∀ mem, arg = some mem → nul ∈ mem) :
    ∃ s', Log.formatString cap c arg s = some s' ∧ Room cap s' ∧ s'.args = s.args ∧
      s'.out.count percent ≤ s.out.count percent + (cString (orNull arg)).count percent := by
  have hmem : nul ∈ orNull arg := by
    cases arg with
    | none => decide
    | some arg => exact hnul arg rfl
  -- what is written is counted on its own
  have hwritten : ∀ (len : BitVec 32) (text : Bytes), text.count percent ≤ (cString (orNull arg)).count percent →
      (s.done len text).out.count percent ≤ s.out.count percent + (cString (orNull arg)).count percent := by
    intro len text htext
    have hout : (s.done len text).out = s.out ++ text := rfl
    rw [hout, List.count_append]
    exact Nat.add_le_add_left htext _
  by_cases hc : c = letterH
  · rw [hc]
    by_cases hdash : arg = none ∧ s.blockAlt = true
    · obtain ⟨rfl, halt⟩ := hdash
      refine ⟨_, R.formatDash halt, R.done _ (single_length ..), rfl, hwritten _ _ ?_⟩
      have hnone : (single dash s.size (lengthFor s 1)).count percent = 0 := by
        rw [single]
        split <;> decide
      rw [hnone]
      exact Nat.zero_le _
    · have hsame : Log.formatString cap letterH arg s = Log.formatString cap letterH (some (orNull arg)) s := by
        cases arg with
        | some arg => rfl
        | none =>
          apply formatString_orNull
          right
          simpa using hdash
      exact ⟨_, hsame.trans (R.formatQuoted hmem rfl), R.done _ (quotedText_length ..), rfl,
        hwritten _ _ (count_quotedText ..)⟩
  · have hfill := fillLen_spec (s := { s with blockAlt := false }) hmem rfl
    generalize lengthFor _ _ = len at hfill
    have R' : Room cap { s with blockAlt := false, blockLen := len } := R
    rw [formatString_orNull (Or.inl hc), formatString_plain hc, hfill, Option.bind_some, plainLoop_spec R',
      if_pos (plainEnd_lt hmem _)]
    exact ⟨_, rfl, R'.write (plainEnd_le _ _), rfl, hwritten len _ (count_plain ..)⟩

/-- Between two rounds of any run. -/
structure Counting (cap : Nat) (s : Printer) (n : Nat) : Prop where
  room : Room cap s
  terminated : Terminated s.args
  count : s.out.count percent + percents s.args ≤ n

theorem count_decimalText (n : Int) : (decimalText n).count percent = 0 := by
  apply List.count_eq_zero_of_not_mem
  intro h
  rcases decimalText_digits h with e | ⟨d, hd, e⟩
  · exact absurd e (by decide)
  · have hne : ∀ d < 10, percent ≠ UInt8.ofNat (48 + d) := by decide
    exact hne d hd e

theorem count_printed (text : Bytes) :
    ∃ memory, printed text = some memory ∧ nul ∈ memory ∧ (cString memory).count percent ≤ text.count percent := by
  refine ⟨snprintf 80 text, rfl, snprintf_nul text, ?_⟩
  calc (cString (snprintf 80 text)).count percent
      ≤ (snprintf 80 text).count percent := (List.takeWhile_sublist _).count_le _
    _ = (text.take 79).count percent := by rw [snprintf, List.count_append]; rfl
    _ ≤ text.count percent := (List.take_sublist _ _).count_le _

section
variable {cap : Nat} {format : Bytes} {i j : Nat} {c : UInt8} {s s' : Printer} {n : Nat}

theorem Terminated.tail {arg : Arg} {args : List Arg} (h : Terminated (arg :: args)) : Terminated args :=
  fun memory hmem => h memory (List.mem_cons_of_mem arg hmem)

theorem percents_cons (arg : Arg) (args : List Arg) : percents (arg :: args) = arg.percents + percents args := by
  rw [percents, List.map_cons, List.sum_cons]
  rfl

/-- The argument is counted with what is written, or with what is left. -/
theorem Counting.converted (R : Room cap s) (c : UInt8) {arg : Option Bytes} (hnul : ∀ mem, arg = some mem → nul ∈ mem)
    (hargs : Terminated s.args)
    (hcount : s.out.count percent + (cString (orNull arg)).count percent + percents s.args ≤ n)
    (h : (formatString cap c arg s).map ((i, ·)) = some (j, s')) : Counting cap s' n := by
  obtain ⟨s₁, e, R₁, hargs₁, hout₁⟩ := R.formatCount c hnul
  rw [e] at h
  cases h
  refine ⟨R₁, by rw [hargs₁]; exact hargs, ?_⟩
  rw [hargs₁]
  omega

/-- The same for a text of the C library. -/
theorem Counting.printed (R : Room cap s) (c : UInt8) (text : Bytes) (hargs : Terminated s.args)
    (hcount : s.out.count percent + text.count percent + percents s.args ≤ n)
    (h : (formatString cap c (Log.printed text) s).map ((i, ·)) = some (j, s')) : Counting cap s' n := by
  obtain ⟨memory, hprinted, hnul, hnone⟩ := count_printed text
  rw [hprinted] at h
  refine Counting.converted R c (fun mem hmem => ?_) hargs ?_ h
  · cases hmem
    exact hnul
  · show s.out.count percent + (cString memory).count percent + percents s.args ≤ n
    omega

theorem numberText_count {text : Bytes} (h : numberText c s = some (text, s')) :
    text.count percent = 0 ∧ ∃ args, s' = { s with args := args } ∧ (Terminated s.args → Terminated args) ∧
      percents args ≤ percents s.args := by
  have hnumeral : ∀ (w : Nat) (value : BitVec w), (numeral c value).count percent = 0 := by
    intro w value
    obtain ⟨m, e, _⟩ := numeral_decimal c value
    rw [e, count_decimalText]
  have htail : ∀ arg args, s.args = arg :: args → (Terminated s.args → Terminated args) ∧
      percents args ≤ percents s.args := by
    intro arg args e
    rw [e, percents_cons]
    exact ⟨fun h => h.tail, Nat.le_add_left _ _⟩
  rw [numberText] at h
  split at h
  · split at h
    · next value args e =>
      cases h
      exact ⟨hnumeral _ _, args, rfl, htail _ _ e⟩
    · cases h
  · split at h
    · split at h
      · next value args e =>
        cases h
        exact ⟨hnumeral _ _, args, rfl, htail _ _ e⟩
      · cases h
    · split at h
      · split at h
        · next value args e =>
          cases h
          exact ⟨hnumeral _ _, args, rfl, htail _ _ e⟩
        · cases h
      · split at h
        · split at h
          · next value args e =>
            cases h
            exact ⟨hnumeral _ _, args, rfl, htail _ _ e⟩
          · cases h
        · cases h
          exact ⟨by decide, s.args, rfl, id, Nat.le_refl _⟩

/-- One round in a block. -/
theorem Counting.block (C : Counting cap s n) (h : formatBlock cap format i c s = some (j, s')) :
    Counting cap s' n := by
  have R := C.room
  have hargs := C.terminated
  have hcount := C.count
  -- what is left behind the first argument
  have htail : ∀ arg args, s.args = arg :: args → Terminated args ∧ arg.percents + percents args ≤ percents s.args := by
    intro arg args e
    rw [e] at hargs ⊢
    exact ⟨hargs.tail, Nat.le_of_eq (percents_cons arg args).symm⟩
  rw [formatBlock] at h
  cases hd : directive c with
  | long =>
    rw [hd] at h
    cases h
    exact ⟨R, hargs, hcount⟩
  | size =>
    rw [hd] at h
    cases h
    exact ⟨R, hargs, hcount⟩
  | dot =>
    rw [hd] at h
    cases h
    exact C
  | space =>
    rw [hd] at h
    cases h
    exact ⟨R, hargs, hcount⟩
  | alt =>
    rw [hd] at h
    cases h
    exact ⟨R, hargs, hcount⟩
  | other =>
    rw [hd] at h
    cases h
    exact C
  | star =>
    rw [hd] at h
    dsimp only at h
    split at h
    · next value args e =>
      obtain ⟨hrest, hsum⟩ := htail _ _ e
      cases h
      exact ⟨R, hrest, by dsimp only; omega⟩
    · cases h
  | digit =>
    rw [hd] at h
    dsimp only at h
    cases hskip : skipDigits format (format.length + 1) i with
    | none =>
      rw [hskip] at h
      cases h
    | some k =>
      rw [hskip] at h
      cases h
      exact ⟨R, hargs, hcount⟩
  | pointer =>
    rw [hd] at h
    dsimp only at h
    split at h
    · next text args e =>
      obtain ⟨hrest, hsum⟩ := htail _ _ e
      have R₁ : Room cap { s with args := args } := R
      have harg : (Arg.pointer text).percents = text.count percent := rfl
      exact Counting.printed R₁ c text hrest (by dsimp only; omega) h
    · cases h
  | number =>
    rw [hd] at h
    dsimp only at h
    cases hnumber : numberText c s with
    | none =>
      rw [hnumber] at h
      cases h
    | some r =>
      obtain ⟨text, s₁⟩ := r
      obtain ⟨htext, args, rfl, hrest, hsum⟩ := numberText_count hnumber
      rw [hnumber] at h
      have R₁ : Room cap { s with args := args } := R
      exact Counting.printed R₁ c _ (hrest hargs) (by dsimp only; omega) h
  | socket =>
    rw [hd] at h
    dsimp only at h
    split at h
    · next sock args e =>
      obtain ⟨hrest, hsum⟩ := htail _ _ e
      have R₁ : Room cap { s with args := args } := R
      have htext : (socketText sock).count percent = 0 := by
        rw [socketText]
        split
        · decide
        · exact count_decimalText _
      exact Counting.printed R₁ c _ hrest (by dsimp only; omega) h
    · cases h
  | string =>
    rw [hd] at h
    dsimp only at h
    split at h
    · next arg args e =>
      obtain ⟨hrest, hsum⟩ := htail _ _ e
      have R₁ : Room cap { s with args := args } := R
      have hnul : ∀ mem, arg = some mem → nul ∈ mem := by
        intro mem hmem
        apply hargs
        rw [e, hmem]
        exact List.mem_cons_self
      refine Counting.converted R₁ c hnul hrest ?_ h
      have harg : (Arg.string arg).percents = (cString (orNull arg)).count percent := rfl
      dsimp only
      omega
    · cases h

theorem Counting.round (C : Counting cap s n) (hsize : s.size ≠ 0) (h : formatChar cap format i c s = some (j, s')) :
    Counting cap s' n := by
  rw [formatChar] at h
  by_cases hblock : s.inBlock = false
  · rw [if_pos hblock] at h
    by_cases hc : c = percent
    · rw [if_pos hc] at h
      cases h
      exact ⟨C.room, C.terminated, C.count⟩
    · have hone : 1 ≤ s.size := Nat.pos_of_ne_zero hsize
      have htake : shrink 1 { s with out := s.out ++ [c] } =
          some { s with out := s.out ++ [c], size := s.size - 1 } := if_pos hone
      have hroom : s.out.length + s.size = cap := C.room
      rw [if_neg hc, Option.bind_eq_bind, C.room.put c hsize, Option.bind_some, htake] at h
      cases h
      refine ⟨?_, C.terminated, ?_⟩
      · rw [Room, List.length_append, List.length_singleton]
        dsimp only
        omega
      · have hone : [c].count percent = 0 := by simp [hc]
        have hcount := C.count
        rw [List.count_append, hone]
        exact hcount
  · rw [if_neg hblock] at h
    exact C.block h

/-- No run writes more of them than its arguments have. -/
theorem Counting.run (fuel : Nat) (C : Counting cap s n) (h : formatLoop cap format fuel i s = some s') :
    Counting cap s' n := by
  induction fuel generalizing i s with
  | zero => cases h
  | succ fuel ih =>
    rw [formatLoop] at h
    cases hc : format[i]? with
    | none =>
      rw [hc] at h
      cases h
    | some c =>
      rw [hc, Option.bind_eq_bind, Option.bind_some] at h
      by_cases hend : c = nul ∨ s.size = 0
      · rw [if_pos hend] at h
        cases h
        exact C
      · rw [if_neg hend] at h
        cases hchar : formatChar cap format i c s with
        | none =>
          rw [hchar] at h
          cases h
        | some r =>
          rw [hchar] at h
          exact ih (C.round (fun e => hend (Or.inr e)) hchar) h

end

/-! All formats. -/

theorem Item.terminated (item : Item) : Terminated item.args := by
  intro memory hmem
  cases item with
  | string text behind plain =>
    have e := List.mem_singleton.mp hmem
    cases e
    exact List.mem_append_right _ List.mem_cons_self
  | number modifier letter value => cases modifier <;> simp [args, Modifier.arg] at hmem
  | _ => cases hmem

theorem argsOf_terminated (items : List Item) : Terminated (argsOf items) := by
  intro memory hmem
  obtain ⟨item, _, harg⟩ := List.mem_flatMap.mp hmem
  exact item.terminated memory harg

/-- The text has the `'%'` of the arguments, and one for each `%%`. -/
theorem Item.count_text (item : Item) :
    percents item.args ≤ item.text.count Httpp.percent ∧
      (item = .percent → percents item.args < item.text.count Httpp.percent) := by
  cases item with
  | literal c plain => exact ⟨Nat.zero_le _, fun e => Item.noConfusion e⟩
  | percent => exact ⟨by decide, fun _ => by decide⟩
  | string text behind plain =>
    refine ⟨?_, fun e => Item.noConfusion e⟩
    show (cString (text ++ nul :: behind)).count Httpp.percent + 0 ≤ _
    rw [Encoding.cString_append_nul, Encoding.cString_of_plain plain]
    exact Nat.le_refl _
  | number modifier letter value =>
    refine ⟨?_, fun e => Item.noConfusion e⟩
    cases modifier <;> exact Nat.zero_le _

theorem count_textOf (items : List Item) :
    percents (argsOf items) ≤ (textOf items).count percent ∧
      (Item.percent ∈ items → percents (argsOf items) < (textOf items).count percent) := by
  induction items with
  | nil => exact ⟨Nat.le_refl _, fun h => by cases h⟩
  | cons item items ih =>
    have hargs : percents (argsOf (item :: items)) = percents item.args + percents (argsOf items) := by
      rw [argsOf, List.flatMap_cons, percents, List.map_append, List.sum_append]
      rfl
    have htext : (textOf (item :: items)).count percent = item.text.count percent + (textOf items).count percent := by
      rw [textOf, List.flatMap_cons, List.count_append]
      rfl
    obtain ⟨hle, hlt⟩ := item.count_text
    rw [hargs, htext]
    refine ⟨Nat.add_le_add hle ih.1, fun h => ?_⟩
    rcases List.mem_cons.mp h with e | h
    · exact Nat.add_lt_add_of_lt_of_le (hlt e.symm) ih.1
    · exact Nat.add_lt_add_of_le_of_lt hle (ih.2 h)

/-- A run that ends with the text of C came by every `'%'` of it honestly. -/
theorem Agrees.no_percent {items : List Item} (h : Agrees ((textOf items).length + 1) items) :
    Item.percent ∉ items := by
  obtain ⟨hbuffer, s, _, _, hloop, _⟩ := h
  intro hpercent
  have C : Counting ((textOf items).length + 1)
      { runStart ((textOf items).length + 1) with args := argsOf items } (percents (argsOf items)) :=
    ⟨Nat.zero_add _, argsOf_terminated items, Nat.le_of_eq (Nat.zero_add _)⟩
  have hcount := (C.run _ hloop).count
  have hfinish : finish ((textOf items).length + 1) s = some (textOf items ++ [nul]) := by
    calc finish ((textOf items).length + 1) s
        = vsnprintf ((textOf items).length + 1) (formatOf items ++ [nul]) (argsOf items) := by
          rw [vsnprintf]
          show _ = (formatLoop _ _ _ 0 { runStart ((textOf items).length + 1) with args := argsOf items }).bind _
          rw [hloop, Option.bind_some]
      _ = some (textOf items ++ [nul]) := by rw [hbuffer, Nat.add_sub_cancel, List.take_length]
  have hout : (textOf items).count percent ≤ s.out.count percent := by
    rw [finish] at hfinish
    split at hfinish
    · split at hfinish
      · have e := List.append_cancel_right (Option.some.inj hfinish)
        rw [← e]
        exact (List.dropLast_sublist _).count_le _
      · cases hfinish
    · split at hfinish
      · have e := List.append_cancel_right (Option.some.inj hfinish)
        rw [← e]
      · cases hfinish
  have hmore := (count_textOf items).2 hpercent
  omega

theorem Item.stored_length (item : Item) : item.stored.length ≤ item.text.length := by
  cases item with
  | string text behind plain => exact List.length_take_le' _ _
  | _ => exact Nat.le_refl _

theorem Item.stored_kept (item : Item) (h : item.Kept) : item.stored = item.text := by
  cases item with
  | string text behind plain => exact keptText_whole h
  | _ => rfl

theorem storedOf_kept {items : List Item} (h : ∀ item ∈ items, item.Kept) : storedOf items = textOf items := by
  induction items with
  | nil => rfl
  | cons item items ih =>
    have hrest := ih fun other hother => h other (List.mem_cons_of_mem item hother)
    calc storedOf (item :: items)
        = item.stored ++ storedOf items := List.flatMap_cons
      _ = item.text ++ textOf items := by rw [item.stored_kept (h item List.mem_cons_self), hrest]
      _ = textOf (item :: items) := List.flatMap_cons.symm

theorem storedOf_length (items : List Item) : (storedOf items).length ≤ (textOf items).length := by
  induction items with
  | nil => exact Nat.le_refl _
  | cons item items ih =>
    have hitem := item.stored_length
    rw [storedOf, textOf, List.flatMap_cons, List.flatMap_cons, List.length_append, List.length_append]
    exact Nat.add_le_add hitem ih

/-- Where nothing is lost, no length is. -/
theorem kept_of_length {items : List Item} (hpercent : Item.percent ∉ items)
    (h : (textOf items).length ≤ (storedOf items).length) : ∀ item ∈ items, item.Kept := by
  induction items with
  | nil => exact fun item hitem => by cases hitem
  | cons item items ih =>
    have hitem := item.stored_length
    have hitems := storedOf_length items
    have hlength : item.text.length + (textOf items).length ≤ item.stored.length + (storedOf items).length := by
      simpa [storedOf, textOf] using h
    have hhead : item.Kept := by
      cases item with
      | percent => exact hpercent List.mem_cons_self
      | string text behind plain =>
        have hshort : ((Item.string text behind plain).stored).length =
            min (escapedLength false text % 2 ^ 32) text.length := List.length_take
        have htext : (Item.string text behind plain).text.length = text.length := rfl
        show text.length ≤ escapedLength false text % 2 ^ 32
        omega
      | _ => exact trivial
    intro other hother
    rcases List.mem_cons.mp hother with rfl | hother
    · exact hhead
    · exact ih (fun hm => hpercent (List.mem_cons_of_mem item hm)) (by omega) other hother

/-- `__vsnprintf` does as C says, whatever the size of the buffer, exactly where there is no
`%%` in the format and no string so long that its length is lost in an `int`. -/
theorem printf_agrees (items : List Item) : (∀ size, 1 ≤ size → Agrees size items) ↔ ∀ item ∈ items, item.Kept := by
  constructor
  · intro h
    have hlarge := h ((textOf items).length + 1) (Nat.le_add_left 1 _)
    have hpercent := hlarge.no_percent
    apply kept_of_length hpercent
    have e := hlarge.1.symm.trans (items_stored (Nat.le_add_left 1 _) items hpercent).1
    have htext : textOf items = (storedOf items).take (textOf items).length := by
      simpa using Option.some.inj e
    calc (textOf items).length
        = ((storedOf items).take (textOf items).length).length := congrArg List.length htext
      _ ≤ (storedOf items).length := by
        rw [List.length_take]
        exact Nat.min_le_right _ _
  · intro h size hsize
    have hpercent : Item.percent ∉ items := fun hm => h .percent hm
    obtain ⟨hbuffer, s, reached, rest, hloop, hsplit, hargs, hfull⟩ := items_stored hsize items hpercent
    rw [storedOf_kept h] at hbuffer
    refine ⟨hbuffer, s, reached, rest, hloop, hsplit, hargs, fun hne => ?_⟩
    rw [← storedOf_kept fun item hitem => h item (hsplit ▸ List.mem_append_left rest hitem)]
    exact hfull hne

/-- `"5%%"`: the buffer has `"5"`. -/
theorem percent_lost : ¬ Agrees 8 [.literal 53 (by decide), .percent] := by
  rintro ⟨h, _⟩
  have hrun : vsnprintf 8 [53, 37, 37, 0] [] = some [53, 0] := by decide
  have e := Option.some.inj (hrun.symm.trans h)
  revert e
  decide

/-- In `"5%%d"` the `d` is a conversion, and takes an argument that is not there. -/
example : vsnprintf 8 (formatOf [.literal 53 (by decide), .percent, .literal letterD (by decide)] ++ [nul]) [] =
    none := by decide

end IcecastCommon.Log
