import IcecastCommon.Log.Alike
import IcecastCommon.Log.Retained

/- A slot that is used again after `log_close`. What `log_close` leaves behind is the number
   of lines to keep, the trigger level, the archive setting and the tail of the list. Where
   these are as in a slot never used, nothing tells the two slots apart; where one is not, a
   few calls do. -/
namespace IcecastCommon.Log
open Library
open Encoding (Bytes nul lf cString)

/-- What `log_close` does not reset is as `log_initialize` set it; `log_open` sets the tail of
the list back itself. -/
structure AsInitialized (named : Option (Bytes × Outcome)) (log : LogT) : Prop where
  keep : log.keepEntries = logInitialize.keepEntries
  trigger : log.triggerLevel = logInitialize.triggerLevel
  archive : log.archiveTimestamp = logInitialize.archiveTimestamp
  tail : named = none → log.lines.tail = logInitialize.lines.tail

/-- What the callers of a sequence of calls see. -/
def seen (calls : List LogCall) (loglist : Loglist) : Option (List Reply) :=
  (runCalls logStep calls loglist).map Prod.fst

def slotSeen (id : Int) (calls : List SlotCall) (log : LogT) : Option (List Reply) :=
  (runCalls (slotStep id) calls log).map Prod.fst

/-- Calls on one slot are seen as on the slot alone. -/
theorem seen_on (i : Fin logMaxlogs) (calls : List SlotCall) (loglist : Loglist) :
    seen (calls.map (.on i.val)) loglist = slotSeen i.val calls (loglist i) := by
  induction calls generalizing loglist with
  | nil => rfl
  | cons call calls ih =>
    rw [seen, slotSeen, List.map_cons, runCalls, runCalls, logStep_on]
    cases slotStep i.val call (loglist i) with
    | none => rfl
    | some r =>
      have hrest := ih (Function.update loglist i r.2)
      rw [Function.update_self, seen, slotSeen] at hrest
      simp only [Option.map_some, Option.bind_eq_bind, Option.bind_some]
      generalize runCalls logStep (calls.map (.on i.val)) (Function.update loglist i r.2) = x at hrest
      generalize runCalls (slotStep i.val) calls r.2 = y at hrest
      cases x with
      | none =>
        cases y with
        | none => rfl
        | some _ => cases hrest
      | some _ =>
        cases y with
        | none => cases hrest
        | some _ => exact congrArg (Option.map (List.cons r.1)) hrest

/-! Nothing tells the slots apart. -/

theorem tail_holds {q : Queue LogEntry} (h : q.Holds [] ∨ q.Broken) (htail : q.tail = .head) : q.Holds [] := by
  rcases h with H | B
  · exact H
  · obtain ⟨_, a, hnext, _⟩ := B
    rw [htail] at hnext
    cases hnext

/-- A closed slot with nothing left behind is opened like one never used. -/
theorem openSlot_alike (file : File) (named : Option (Bytes × Outcome)) {log : LogT} (S : Settled log)
    (hidle : log.inUse = false) (A : AsInitialized named log) :
    Alike (openSlot file named logInitialize) (openSlot file named log) := by
  obtain ⟨hlevel, hentries⟩ := S.idle hidle
  obtain ⟨hlines, htotal⟩ := S.unlined hentries
  obtain ⟨hkeep, htrigger, harchive, htail⟩ := A
  cases named with
  | none =>
    refine ⟨?_, Or.inl ⟨[], [], Queue.holds_empty, tail_holds hlines (htail rfl), rfl⟩⟩
    simp only [openSlot, openSlotFile, hlevel, hentries, htotal, hkeep, htrigger, harchive]
    rfl
  | some no =>
    refine ⟨?_, Or.inl ⟨[], [], Queue.holds_reset _, Queue.holds_reset _, rfl⟩⟩
    simp only [openSlot, openSlotName, openSlotFile, hlevel, htotal, hkeep, htrigger, harchive]
    rfl

/-! Calls that do tell them apart. -/

theorem openSlot_fields (file : File) (named : Option (Bytes × Outcome)) (log : LogT) :
    (openSlot file named log).inUse = true ∧ (openSlot file named log).logfile = some file ∧
      (openSlot file named log).keepEntries = log.keepEntries ∧
      (openSlot file named log).triggerLevel = log.triggerLevel ∧
      (openSlot file named log).archiveTimestamp = log.archiveTimestamp := by
  cases named <;> exact ⟨rfl, rfl, rfl, rfl, rfl⟩

/-- A line is written, and all that are retained are read. -/
def writeAndRead : List SlotCall := [.writeDirect fine lineA, .contentsArray true]

/-- The second reply tells whether lines are kept. -/
theorem writeAndRead_seen (id : Int) {n : Nat} {log : LogT} (R : Retaining ⟨n, []⟩ log) (hfile : HasFile log) :
    ∃ reply, slotSeen id writeAndRead log =
      some [reply, { lines := some (if n = 0 then [] else [lineA.bytes]) }] := by
  have ht : LineOk ([] ++ lineA.bytes) := text_ok lineA
  obtain ⟨events, log', e, R', hline⟩ := writeEntry_retaining fine R hfile ht
  rw [hline (Option.some_ne_none 1)] at R'
  have hwrite : slotStep id (.writeDirect fine lineA) log =
      some ({ events := events ++ [.fflush log'.logfile] }, log') := by
    show (writeEntry fine [] lineA.bytes log).map _ = _
    rw [e]
    rfl
  have hread : slotStep id (.contentsArray true) log' =
      some ({ lines := some (wrote ⟨n, []⟩ (some ([] ++ lineA.bytes))).lines }, log') :=
    R'.intact.contents
  have hlines : (wrote ⟨n, []⟩ (some ([] ++ lineA.bytes))).lines = if n = 0 then [] else [lineA.bytes] := by
    rw [wrote]
    by_cases hn : n = 0
    · rw [if_pos hn, if_pos hn]
    · have hdrop : (1 : Nat) - n = 0 := by omega
      rw [if_neg hn, if_neg hn]
      show List.drop (1 - n) [lineA.bytes] = _
      rw [hdrop, List.drop_zero]
  refine ⟨{ events := events ++ [.fflush log'.logfile] }, ?_⟩
  rw [← hlines, slotSeen, writeAndRead, runCalls_cons hwrite, runCalls_cons hread]
  rfl

/-- A line cannot be kept once the tail has been left behind. -/
theorem writeDirect_broken (id : Int) {log : LogT} (hlive : log.inUse = true)
    (hkeep : log.keepEntries ≠ 0) (B : log.lines.Broken) :
    slotStep id (.writeDirect fine lineA) log = none := by
  obtain ⟨ok, events, file, size, hopen, _, hno, _⟩ := logOpenSlot_spec fine log
  have hentry : writeEntry fine [] lineA.bytes log = none := by
    cases ok with
    | false => exact absurd (hno rfl hlive).2 (Option.some_ne_none 1)
    | true =>
      rw [writeEntry, hopen]
      exact bind_of_none (createLogEntry_broken fine _ _ _ (by exact hkeep) (by exact B)) _
  show (writeEntry fine [] lineA.bytes log).map _ = none
  rw [hentry]
  rfl

/-- What the C library answers that finds a file of `s` bytes and prints nothing of the line. -/
def sized (s : Int) : Outcome where
  fopen := some 1
  stat := some s
  fprintf := 0
  timestamp := []

/-- A file of `s` bytes is opened, and written once more. -/
def growTo (s : Int) : List SlotCall :=
  [.setFilename (some [97]), .reopen, .writeDirect (sized s) lineA, .writeDirect (sized s) lineA]

/-- What the last call does to files. -/
def rotation (trigger archive s : Int) : List Event :=
  if trigger ≠ 0 ∧ s > trigger then
    [.fclose 1, .rename [97] (if archive ≠ 0 then [97, 46] else [97, 46, 111, 108, 100]), .fopen [97],
      .fprintf 1 [97, 10], .fflush (some 1)]
  else [.fprintf 1 [97, 10], .fflush (some 1)]

/-- An open log without retained lines, its file of `s` bytes. -/
def grown (s : Int) (log : LogT) : LogT :=
  { log with filename := some [97], logfile := some 1, size := s }

theorem grown_rotates (id s : Int) (log : LogT) (hlive : log.inUse = true) (hkeep : log.keepEntries = 0) :
    ∃ log', slotStep id (.writeDirect (sized s) lineA) (grown s log) =
      some ({ events := rotation log.triggerLevel log.archiveTimestamp s }, log') := by
  have hdead : ¬ (grown s log).inUse = false := by
    show ¬ log.inUse = false
    rw [hlive]
    exact Bool.noConfusion
  have hentry := createLogEntry_unkept (sized s) (grown s log) [] lineA.bytes (f := 1) rfl hkeep
  by_cases hfull : log.triggerLevel ≠ 0 ∧ s > log.triggerLevel
  · have hopen : logOpenSlot (sized s) (grown s log) = (true,
        [.fclose 1, .rename [97] (archiveName (sized s) (grown s log) [97]), .fopen [97]], grown s log) := by
      have hgrown : (grown s log).logfile = none ∨
          (grown s log).triggerLevel ≠ 0 ∧ (grown s log).size > (grown s log).triggerLevel := Or.inr hfull
      rw [logOpenSlot, if_neg hdead, if_pos hgrown]
      rfl
    have hname : archiveName (sized s) (grown s log) [97] =
        if log.archiveTimestamp ≠ 0 then [97, 46] else [97, 46, 111, 108, 100] := rfl
    refine ⟨grown s log, ?_⟩
    show (writeEntry (sized s) [] lineA.bytes (grown s log)).map _ = _
    rw [writeEntry, hopen, rotation, if_pos hfull, ← hname]
    simp only [hentry, Option.bind_eq_bind, Option.bind_some]
    rfl
  · have hopen : logOpenSlot (sized s) (grown s log) = (true, [], grown s log) := by
      have hnot : ¬ ((grown s log).logfile = none ∨
          (grown s log).triggerLevel ≠ 0 ∧ (grown s log).size > (grown s log).triggerLevel) := by
        intro h
        exact h.elim (fun h => Option.some_ne_none 1 h) hfull
      rw [logOpenSlot, if_neg hdead, if_neg hnot]
    refine ⟨grown s log, ?_⟩
    show (writeEntry (sized s) [] lineA.bytes (grown s log)).map _ = _
    rw [writeEntry, hopen, rotation, if_neg hfull]
    simp only [hentry, Option.bind_eq_bind, Option.bind_some]
    rfl

/-- The last reply tells when the log is rotated and what the full file is renamed to. -/
theorem growTo_seen (id s : Int) (log : LogT) {f : File} (hlive : log.inUse = true)
    (hfile : log.logfile = some f) (hkeep : log.keepEntries = 0) :
    slotSeen id (growTo s) log = some [{ ret := id }, { events := [.fclose f] },
      { events := [.fopen [97], .fprintf 1 [97, 10], .fflush (some 1)] },
      { events := rotation log.triggerLevel log.archiveTimestamp s }] := by
  obtain ⟨log', hlast⟩ := grown_rotates id s log hlive hkeep
  obtain ⟨inUse, level, filename, logfile, size, trigger, archive, total, entries, keep, lines⟩ := log
  obtain rfl : inUse = true := hlive
  obtain rfl : logfile = some f := hfile
  obtain rfl : keep = 0 := hkeep
  have hname : slotStep id (.setFilename (some [97])) ⟨true, level, filename, some f, size, trigger, archive,
      total, entries, 0, lines⟩ = some ({ ret := id }, ⟨true, level, some [97], some f, size, trigger, archive,
      total, entries, 0, lines⟩) := rfl
  have hreopen : slotStep id .reopen ⟨true, level, some [97], some f, size, trigger, archive, total, entries,
      0, lines⟩ = some ({ events := [.fclose f] }, ⟨true, level, some [97], none, size, trigger, archive, total,
      entries, 0, lines⟩) := rfl
  have hopen : slotStep id (.writeDirect (sized s) lineA) ⟨true, level, some [97], none, size, trigger, archive,
      total, entries, 0, lines⟩ =
      some ({ events := [.fopen [97], .fprintf 1 [97, 10], .fflush (some 1)] },
        grown s ⟨true, level, filename, some f, size, trigger, archive, total, entries, 0, lines⟩) := rfl
  rw [slotSeen, growTo, runCalls_cons hname, runCalls_cons hreopen, runCalls_cons hopen, runCalls_cons hlast]
  rfl

theorem rotation_inj {trigger trigger' archive archive' : Int}
    (h : ∀ s, rotation trigger archive s = rotation trigger' archive' s) (hpos : trigger' ≠ 0) :
    trigger = trigger' ∧ (archive = 0 ↔ archive' = 0) := by
  have hfull : ∀ s, (trigger ≠ 0 ∧ s > trigger) ↔ (trigger' ≠ 0 ∧ s > trigger') := by
    intro s
    have hs := h s
    rw [rotation, rotation] at hs
    by_cases h₁ : trigger ≠ 0 ∧ s > trigger <;> by_cases h₂ : trigger' ≠ 0 ∧ s > trigger'
    · exact ⟨fun _ => h₂, fun _ => h₁⟩
    · rw [if_pos h₁, if_neg h₂] at hs
      cases hs
    · rw [if_neg h₁, if_pos h₂] at hs
      cases hs
    · exact ⟨fun h => absurd h h₁, fun h => absurd h h₂⟩
  have htrigger : trigger = trigger' := by
    have h₁ := hfull (trigger' + 1)
    have h₂ := hfull trigger
    have h₃ := hfull trigger'
    omega
  refine ⟨htrigger, ?_⟩
  have hs := h (trigger' + 1)
  have hgt : trigger' ≠ 0 ∧ trigger' + 1 > trigger' := ⟨hpos, by omega⟩
  rw [htrigger, rotation, rotation, if_pos hgt, if_pos hgt] at hs
  by_cases ha : archive = 0 <;> by_cases ha' : archive' = 0
  · exact ⟨fun _ => ha', fun _ => ha⟩
  · rw [if_neg (not_not.mpr ha), if_pos ha'] at hs
    simp at hs
  · rw [if_pos ha, if_neg (not_not.mpr ha')] at hs
    simp at hs
  · exact ⟨fun h => absurd h ha, fun h => absurd h ha'⟩

/-- One line is kept of what is written. -/
def keepOne : List SlotCall := [.setLinesKept 1, .writeDirect fine lineA]

theorem keepOne_broken (id : Int) {log : LogT} (hlive : log.inUse = true) (hentries : log.entries = 0)
    (B : log.lines.Broken) : slotSeen id keepOne log = none := by
  have hdead : ¬ log.inUse = false := by
    rw [hlive]
    exact Bool.noConfusion
  have hset : slotStep id (.setLinesKept 1) log = some ({}, { log with keepEntries := 1 }) := by
    show (logSetLinesKept 1 log).map _ = _
    rw [logSetLinesKept, if_neg hdead]
    exact congrArg (Option.map _) (trimTo_nothing (by exact hentries) 1 _)
  have hone : (1 : BitVec 32) ≠ 0 := by decide
  have hwrite : slotStep id (.writeDirect fine lineA) { log with keepEntries := 1 } = none :=
    writeDirect_broken id hlive hone B
  rw [slotSeen, keepOne, runCalls_cons hset, runCalls, hwrite]
  rfl

/-- A slot that cannot be told from one never used has nothing left behind. -/
theorem asInitialized_of_seen (id : Int) (file : File) (named : Option (Bytes × Outcome)) {log : LogT}
    (S : Settled log) (hidle : log.inUse = false)
    (h : ∀ calls, slotSeen id calls (openSlot file named log) =
      slotSeen id calls (openSlot file named logInitialize)) : AsInitialized named log := by
  obtain ⟨hlive, hfile, hkept, htrig, harch⟩ := openSlot_fields file named log
  obtain ⟨hlive', hfile', hkept', htrig', harch'⟩ := openSlot_fields file named logInitialize
  have S' : Settled (openSlot file named log) := openSlot_settled file named S hidle
  have hentries : (openSlot file named log).entries = 0 := by
    cases named with
    | none => exact (S.idle hidle).2
    | some no => rfl
  obtain ⟨hlines, htotal⟩ := S'.unlined hentries
  have hopen : HasFile (openSlot file named log) := Or.inr (hfile ▸ Option.some_ne_none file)
  have hopen' : HasFile (openSlot file named logInitialize) := Or.inr (hfile' ▸ Option.some_ne_none file)
  have R' : Retaining ⟨0, []⟩ (openSlot file named logInitialize) := by
    cases named with
    | none => exact ⟨intact_nil Queue.holds_empty rfl rfl, rfl, rfl, Nat.le_refl 0⟩
    | some no => exact ⟨intact_nil (Queue.holds_reset _) rfl rfl, rfl, rfl, Nat.le_refl 0⟩
  have hkeep : log.keepEntries = 0 := by
    by_contra hne
    have hread := h writeAndRead
    obtain ⟨reply', hseen'⟩ := writeAndRead_seen id R' hopen'
    rw [hseen'] at hread
    rcases hlines with H | B
    · have I := intact_nil H hentries htotal
      have R : Retaining ⟨log.keepEntries.toNat, []⟩ (openSlot file named log) :=
        ⟨I, hlive, congrArg BitVec.toNat hkept, Nat.zero_le _⟩
      obtain ⟨reply, hseen⟩ := writeAndRead_seen id R hopen
      have hz : log.keepEntries.toNat ≠ 0 := fun hz => hne (BitVec.eq_of_toNat_eq hz)
      rw [hseen, if_neg hz] at hread
      simp [lineA] at hread
    · have hnone : slotSeen id writeAndRead (openSlot file named log) = none := by
        rw [slotSeen, writeAndRead, runCalls, writeDirect_broken id hlive (hkept ▸ hne) B]
        rfl
      rw [hnone] at hread
      cases hread
  have hrotation : ∀ s, rotation log.triggerLevel log.archiveTimestamp s =
      rotation logInitialize.triggerLevel logInitialize.archiveTimestamp s := by
    intro s
    have hgrow := h (growTo s)
    rw [growTo_seen id s _ hlive hfile (hkept.trans hkeep), growTo_seen id s _ hlive' hfile' hkept',
      htrig, harch, htrig', harch'] at hgrow
    simpa using hgrow
  obtain ⟨htrigger, harchive⟩ := rotation_inj hrotation (by decide)
  refine ⟨hkeep, htrigger, harchive.mpr rfl, ?_⟩
  intro hnamed
  subst hnamed
  rcases hlines with H | B
  · exact H.tail_eq_head.mpr rfl
  · have hone := h keepOne
    rw [keepOne_broken id hlive hentries B] at hone
    cases hone

/-! Reused slots. -/

/-- After any history, closed and opened again, a slot cannot be told from one never used
exactly when what `log_close` does not reset was as `log_initialize` sets it before. -/
theorem reused_slot (before : List LogCall) (i : Fin logMaxlogs) (file : File)
    (named : Option (Bytes × Outcome)) {replies : List Reply} {loglist : Loglist}
    (hbefore : runCalls logStep before loglistInitialize = some (replies, loglist)) :
    ∃ reply log, logClose (loglist i) = some (reply, log) ∧
      ((∀ calls, seen calls (Function.update loglist i (openSlot file named log)) =
          seen calls (Function.update loglist i (openSlot file named logInitialize))) ↔
        AsInitialized named (loglist i)) := by
  have S : ∀ i, Settled (loglist i) :=
    runCalls_preserves (P := fun l => ∀ i, Settled (l i)) (fun _ _ _ _ => logStep_settled) initialize_settled
      hbefore
  obtain ⟨reply, log, hclose, S', hkept, hlines⟩ := logClose_settled (S i)
  obtain ⟨hidle, hkeep, htrigger, harchive⟩ := hkept
  refine ⟨reply, log, hclose, ?_⟩
  constructor
  · intro h
    have A : AsInitialized named log := by
      apply asInitialized_of_seen i.val file named S' hidle
      intro calls
      have hcalls := h (calls.map (.on i.val))
      rw [seen_on, seen_on, Function.update_self, Function.update_self] at hcalls
      exact hcalls
    refine ⟨hkeep ▸ A.keep, htrigger ▸ A.trigger, harchive ▸ A.archive, ?_⟩
    rw [← hlines (hkeep ▸ A.keep)]
    exact A.tail
  · intro A calls
    have A' : AsInitialized named log := by
      refine ⟨hkeep.trans A.keep, htrigger.trans A.trigger, harchive.trans A.archive, ?_⟩
      rw [hlines A.keep]
      exact A.tail
    have hsame : AllSame (Function.update loglist i (openSlot file named logInitialize))
        (Function.update loglist i (openSlot file named log)) :=
      AllSame.update (fun _ => Or.inl rfl) i (Or.inr (openSlot_alike file named S' hidle A'))
    exact (runCalls_outputs_eq (fun call _ _ => logStep_same call) calls hsame).symm

/-- Two logs are opened and written; the first keeps two lines, which are read, and is set back before it is
closed. -/
def setBack : List LogCall :=
  [.open (some [97]) fine, .openFile (some 2), .on 0 (.setLinesKept 2), .on 0 (.setArchiveTimestamp 1),
    .on 1 (.setTrigger 1), .on 0 (.writeDirect fine lineA), .on 1 (.writeDirect fine lineA),
    .on 0 (.writeDirect fine lineA), .on 0 (.writeDirect fine lineA), .on 0 (.contentsArray true), .on 0 .reopen,
    .on 0 (.setLinesKept 0), .on 0 (.writeDirect fine lineA), .on 0 (.setArchiveTimestamp 0)]

/-- Opened by name, its slot is as good as new. -/
theorem reused_slot_once :
    ∃ replies loglist, runCalls logStep setBack loglistInitialize = some (replies, loglist) ∧
      ∃ reply log, logClose (loglist 0) = some (reply, log) ∧
        ∀ calls, seen calls (Function.update loglist 0 (openSlot 3 (some ([98], fine)) log)) =
          seen calls (Function.update loglist 0 (openSlot 3 (some ([98], fine)) logInitialize)) := by
  obtain ⟨replies, loglist, hrun, hkeep, htrigger, harchive⟩ : ∃ replies loglist,
      runCalls logStep setBack loglistInitialize = some (replies, loglist) ∧
        (loglist 0).keepEntries = logInitialize.keepEntries ∧
        (loglist 0).triggerLevel = logInitialize.triggerLevel ∧
        (loglist 0).archiveTimestamp = logInitialize.archiveTimestamp := ⟨_, _, rfl, rfl, rfl, rfl⟩
  obtain ⟨reply, log, hclose, h⟩ := reused_slot setBack 0 3 (some ([98], fine)) hrun
  refine ⟨replies, loglist, hrun, reply, log, hclose, h.mpr ⟨hkeep, htrigger, harchive, fun hnone => ?_⟩⟩
  cases hnone

/-- A log that keeps a line is closed, and the next one in its slot keeps a line. -/
theorem reused_slot_keeps :
    ∃ replies loglist, runCalls logStep [.openFile (some 1), .on 0 (.setLinesKept 1), .on 0 .close]
        loglistInitialize = some (replies, loglist) ∧
      seen [.openFile (some 2), .on 0 (.writeDirect fine lineA), .on 0 (.contentsArray true)] loglist ≠
        seen [.openFile (some 2), .on 0 (.writeDirect fine lineA), .on 0 (.contentsArray true)]
          loglistInitialize := by
  refine ⟨_, _, rfl, ?_⟩
  decide

end IcecastCommon.Log
