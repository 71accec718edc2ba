import IcecastCommon.Log.Retained

/- What `log_contents` hands out. `total` counts the NUL of every line, so it serves as the size of
   the buffer; as the length of the text it is too large by the number of lines. -/
namespace IcecastCommon.Log
open Library
open Encoding (Bytes nul lf cString)

/-- The lines of the entries one after the other. -/
def concatenation (entries : List LogEntry) : Bytes := (entries.map fun entry => cString entry.line).flatten

/-- What is wanted of `log_contents`: the lines, oldest first and none cut off, and their number of
    bytes. -/
def ContentsRight (log : LogT) (entries : List LogEntry) : Prop :=
  ∃ len, logContents log = some ({ contents := some (concatenation entries, len) }, log) ∧
    len.toNat = (concatenation entries).length

/-- The length is `total`, whatever the text is. -/
theorem logContents_len {log log' : LogT} {reply : Reply} {text : Bytes} {len : BitVec 32}
    (h : logContents log = some (reply, log')) (hreply : reply.contents = some (text, len)) :
    len = log.total.setWidth 32 := by
  unfold logContents at h
  dsimp only at h
  split at h
  · cases h
  · rw [Option.bind_eq_bind, Option.bind_eq_some_iff] at h
    obtain ⟨entries, -, h⟩ := h
    rw [Option.bind_eq_bind, Option.bind_eq_some_iff] at h
    obtain ⟨printed, -, h⟩ := h
    cases h
    cases hreply
    rfl

/-- The lines take a byte more than their text each. -/
theorem lineBytes_eq {ls : List Bytes} (hfine : ∀ l ∈ ls, LineOk l) :
    lineBytes ls = (concatenation (ls.map entryOf)).length + ls.length := by
  induction ls with
  | nil => rfl
  | cons l ls ih =>
    have hl := hfine l List.mem_cons_self
    have ih := ih fun m hm => hfine m (List.mem_cons_of_mem _ hm)
    calc lineBytes (l :: ls)
        = (l.length + 2) + lineBytes ls := rfl
      _ = (l.length + 2) + ((concatenation (ls.map entryOf)).length + ls.length) := by rw [ih]
      _ = (concatenation ((l :: ls).map entryOf)).length + (l :: ls).length := by
        simp only [concatenation, List.map_cons, List.flatten_cons, List.length_append, List.length_cons,
          cString_entryOf hl, List.length_nil]
        omega

/-- The loop prints the lines where they fit. -/
theorem printLines_eq {ls : List Bytes} (hfine : ∀ l ∈ ls, LineOk l) {remain : Int}
    (hfits : (concatenation (ls.map entryOf)).length < remain) :
    printLines (ls.map entryOf) remain = some (concatenation (ls.map entryOf)) := by
  induction ls generalizing remain with
  | nil => rfl
  | cons l ls ih =>
    have hl := cString_entryOf (hfine l List.mem_cons_self)
    have hlen : (concatenation ((l :: ls).map entryOf)).length =
        (l ++ [lf]).length + (concatenation (ls.map entryOf)).length := by
      rw [concatenation, List.map_cons, List.map_cons, List.flatten_cons, List.length_append, hl]
      rfl
    have hroom : (concatenation (ls.map entryOf)).length < remain - (l ++ [lf]).length := by omega
    have hrest := ih (fun m hm => hfine m (List.mem_cons_of_mem _ hm)) hroom
    rw [List.map_cons, printLines, if_neg (by omega)]
    dsimp only
    rw [hl, hrest, Option.bind_eq_bind, Option.bind_some, List.take_of_length_le (by omega)]
    simp [concatenation, hl]

/-- The text is whole as long as `total` fits an `int`. -/
theorem logContents_text {log : LogT} {ls : List Bytes} (I : Intact log ls) (hint : lineBytes ls + 1 < 2 ^ 31) :
    logContents log =
      some ({ contents := some (concatenation (ls.map entryOf), log.total.setWidth 32) }, log) := by
  have hremain : remainOf log.total = lineBytes ls + 1 := by
    have hone : (1 : BitVec 64).toNat = 1 := rfl
    rw [remainOf, I.total, BitVec.toInt_eq_toNat_of_lt, BitVec.toNat_setWidth, BitVec.toNat_add, hone,
      BitVec.toNat_ofNat]
    · omega
    · rw [BitVec.toNat_setWidth, BitVec.toNat_add, hone, BitVec.toNat_ofNat]
      omega
  have hbytes := lineBytes_eq I.fine
  unfold logContents
  dsimp only
  rw [hremain, if_neg (by omega), I.read, Option.bind_eq_bind, Option.bind_some,
    printLines_eq I.fine (by omega)]
  rfl

/-- On lines in order `log_contents` is right where there are none. -/
theorem Intact.contentsRight_iff {log : LogT} {ls : List Bytes} (I : Intact log ls) :
    ContentsRight log (ls.map entryOf) ↔ ls = [] := by
  have hbytes := lineBytes_eq I.fine
  have hcount : ls.length < 2 ^ 32 := by
    rw [← I.entries]
    exact log.entries.isLt
  constructor
  · rintro ⟨len, hcontents, hlen⟩
    have htotal : len.toNat = lineBytes ls % 2 ^ 32 := by
      rw [logContents_len hcontents rfl, I.total, BitVec.toNat_setWidth, BitVec.toNat_ofNat]
      omega
    apply List.eq_nil_of_length_eq_zero
    have := len.isLt
    omega
  · rintro rfl
    exact ⟨_, logContents_text I (by decide), by rw [I.total]; rfl⟩

/-- After every run, for a log whose list is intact, `log_contents` returns the lines with their
    number of bytes exactly where no line is retained. -/
theorem contents_right (calls : List LogCall) (replies : List Reply) (loglist : Loglist)
    (hrun : runCalls logStep calls loglistInitialize = some (replies, loglist)) (i : Fin logMaxlogs)
    (cs : List (Nat × LogEntry)) (hintact : (loglist i).lines.Holds cs) :
    ContentsRight (loglist i) (cs.map Prod.snd) ↔ cs = [] := by
  rcases (reached_settled hrun i).lines with ⟨ls, I, -⟩ | E
  · have hlines : cs.map Prod.snd = ls.map entryOf := by
      have hread := hintact.read
      rw [I.read] at hread
      exact (Option.some.inj hread).symm
    rw [hlines, I.contentsRight_iff, ← List.map_eq_nil_iff (f := entryOf), ← hlines, List.map_eq_nil_iff]
  · exact absurd hintact (E.queue.not_holds cs)

/-- Two logs are written; the first keeps no lines, the second keeps two of three. -/
def twoWritten : List LogCall :=
  [.open (some [97]) fine, .openFile (some 2), .on 0 (.writeDirect fine lineA), .on 1 (.setLinesKept 2),
    .on 1 (.writeDirect fine lineA), .on 1 (.writeDirect fine lineA), .on 1 (.writeDirect fine lineA),
    .on 0 (.writeDirect fine lineA)]

/-- The contents of the first are right, those of the second are not. -/
theorem contents_right_written :
    ∃ replies loglist cs, runCalls logStep twoWritten loglistInitialize = some (replies, loglist) ∧
      ContentsRight (loglist 0) [] ∧ (loglist 1).lines.Holds cs ∧ cs.length = 2 ∧
        ¬ContentsRight (loglist 1) (cs.map Prod.snd) := by
  obtain ⟨replies, loglist, hrun, htail, hread⟩ : ∃ replies loglist,
      runCalls logStep twoWritten loglistInitialize = some (replies, loglist) ∧
        (loglist 0).lines.tail = .head ∧
        (loglist 1).lines.read = some [entryOf [97], entryOf [97]] := ⟨_, _, rfl, rfl, rfl⟩
  have hnone : (loglist 0).lines.Holds [] := by
    rcases (reached_settled hrun 0).lines with ⟨ls, I, -⟩ | E
    · obtain ⟨cs, H, hcs⟩ := I.queue
      rwa [H.tail_eq_head.mp htail] at H
    · obtain ⟨_, a, hnext, _⟩ := E.queue
      rw [htail] at hnext
      cases hnext
  rcases (reached_settled hrun 1).lines with ⟨ls, I, -⟩ | E
  · obtain ⟨cs, H, hcs⟩ := I.queue
    have hboth : cs.map Prod.snd = [entryOf [97], entryOf [97]] := Option.some.inj (H.read.symm.trans hread)
    have hlen : cs.length = 2 := by
      rw [← List.length_map (f := Prod.snd), hboth]
      rfl
    refine ⟨replies, loglist, cs, hrun, ?_, H, hlen, ?_⟩
    · exact (contents_right twoWritten replies loglist hrun 0 [] hnone).mpr rfl
    · rw [contents_right twoWritten replies loglist hrun 1 cs H]
      rintro rfl
      cases hlen
  · rw [E.queue.read] at hread
    cases hread

/-- A line written while one is to be kept. -/
def oneKept : List LogCall := [.openFile (some 1), .on 0 (.setLinesKept 1), .on 0 (.writeDirect fine lineA)]

/-- It takes two bytes with its newline, and three are reported. -/
theorem contents_one_line :
    ∃ replies loglist cs, runCalls logStep oneKept loglistInitialize = some (replies, loglist) ∧
      (loglist 0).lines.Holds cs ∧ ¬ContentsRight (loglist 0) (cs.map Prod.snd) := by
  obtain ⟨replies, loglist, hrun, hread⟩ : ∃ replies loglist,
      runCalls logStep oneKept loglistInitialize = some (replies, loglist) ∧
        (loglist 0).lines.read = some [entryOf [97]] := ⟨_, _, rfl, rfl⟩
  rcases (reached_settled hrun 0).lines with ⟨ls, I, -⟩ | E
  · obtain ⟨cs, H, hcs⟩ := I.queue
    have hone : ls.map entryOf = [entryOf [97]] := Option.some.inj (I.read.symm.trans hread)
    refine ⟨replies, loglist, cs, hrun, H, ?_⟩
    rw [hcs, I.contentsRight_iff]
    rintro rfl
    cases hone
  · rw [E.queue.read] at hread
    cases hread

end IcecastCommon.Log
