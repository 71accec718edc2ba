import IcecastCommon.Log.Settled

/- The lines a log retains, over runs of `log_set_lines_kept` and of the two writing
   functions on any log in use. `kept` is the rule they are retained under. It is followed
   as long as `log_tail` is at the end of the list: a `log_set_lines_kept (0)` or a
   `log_close` that finds a line to drop leaves it in the freed entry, where the next
   retained line is stored. -/
namespace IcecastCommon.Log
open Library
open Encoding (Bytes nul lf cString)

/-! The rule. -/

/-- The calls that have to do with lines. -/
inductive LineCall where
  | setLinesKept (count : BitVec 32)
  | write (o : Outcome) (priority : BitVec 32) (date : Text 256) (cat func : Bytes) (line : Text 1024)
  | writeDirect (o : Outcome) (line : Text 1024)

def LineCall.toSlot : LineCall → SlotCall
  | .setLinesKept count => .setLinesKept count
  | .write o priority date cat func line => .write o priority date cat func line
  | .writeDirect o line => .writeDirect o line

def lineStep (id : Int) (call : LineCall) (log : LogT) : Option (Reply × LogT) :=
  slotStep id call.toSlot log

/-- How many lines are to be kept, and which are. -/
structure Kept where
  keep : Nat
  lines : List Bytes

/-- The line that a call wrote to the log file, without its newline. -/
def printedLine : List Event → Option Bytes
  | [] => none
  | .fprintf _ text :: _ => some text.dropLast
  | _ :: events => printedLine events

/-- A written line is appended while any are to be kept, and the oldest are dropped so that
at most as many remain. -/
def wrote (k : Kept) (line : Option Bytes) : Kept :=
  match line with
  | some line => if k.keep = 0 then k else { k with lines := keepLast k.keep (k.lines ++ [line]) }
  | none => k

/-- The rule for one call and what it did. -/
def kept (k : Kept) (call : LineCall) (reply : Reply) : Kept :=
  match call with
  | .setLinesKept count => ⟨count.toNat, keepLast count.toNat k.lines⟩
  | .write _ _ _ _ _ _ => wrote k (printedLine reply.events)
  | .writeDirect _ _ => wrote k (printedLine reply.events)

/-- The list from `log_head` has `entries` elements, at most `keep_entries`; `log_tail` is
behind the last one; and `log_contents_array` returns the lines that the rule retains. -/
def Retains (k : Kept) (log : LogT) : Prop :=
  (∃ cs, log.lines.Holds cs ∧ cs.length = log.entries.toNat) ∧ log.entries ≤ log.keepEntries ∧
    log.keepEntries.toNat = k.keep ∧
    logContentsArray true log = some ({ lines := some k.lines }, log)

/-- How many lines a log is to keep, and what `log_contents_array` finds in it. -/
def keptNow (log : LogT) : Kept := ⟨log.keepEntries.toNat, (log.lines.read.getD []).map copyLine⟩

/-- Where no line is retained, `log_tail` designates `log_head`. -/
def TailAtHead (log : LogT) : Prop := log.entries = 0 → log.lines.tail = .head

/-- The message has a priority and the level lets it through. -/
def Passes (priority : BitVec 32) (log : LogT) : Prop :=
  ¬log.level < priority ∧ ¬(priority = 0 ∨ priority.toNat > prior.length)

instance decidablePasses (priority : BitVec 32) (log : LogT) : Decidable (Passes priority log) := by
  unfold Passes
  infer_instance

/-- There is a file to print to, or a name to open one. -/
def HasFile (log : LogT) : Prop := log.filename ≠ none ∨ log.logfile ≠ none

instance (log : LogT) : Decidable (HasFile log) := by
  unfold HasFile
  infer_instance

/-- Keeping no line is asked for only when there is none, and no line is written that cannot be printed. -/
def KeepsLines : LineCall → LogT → Prop
  | .setLinesKept count, log => count = 0 → log.entries = 0
  | .write _ priority _ _ _ _, log => Passes priority log → HasFile log
  | .writeDirect _ _, log => HasFile log

instance (call : LineCall) (log : LogT) : Decidable (KeepsLines call log) :=
  match call with
  | .setLinesKept count => inferInstanceAs (Decidable (count = 0 → log.entries = 0))
  | .write _ priority _ _ _ _ => inferInstanceAs (Decidable (Passes priority log → HasFile log))
  | .writeDirect _ _ => inferInstanceAs (Decidable (HasFile log))

/-! One call. -/

/-- The invariant of a log that retains its lines. -/
structure Retaining (k : Kept) (log : LogT) : Prop where
  intact : Intact log k.lines
  inUse : log.inUse = true
  keep : log.keepEntries.toNat = k.keep
  fit : k.lines.length ≤ k.keep

theorem Retaining.retains {k : Kept} {log : LogT} (R : Retaining k log) : Retains k log := by
  obtain ⟨cs, H, hcs⟩ := R.intact.queue
  refine ⟨⟨cs, H, ?_⟩, ?_, R.keep, R.intact.contents⟩
  · have hlen := congrArg List.length hcs
    rw [List.length_map, List.length_map] at hlen
    rw [hlen, R.intact.entries]
  · show log.entries.toNat ≤ log.keepEntries.toNat
    rw [R.intact.entries, R.keep]
    exact R.fit

/-- A log in use that anything has been done with, if its tail has not been left behind. -/
theorem Settled.retaining {log : LogT} (S : Settled log) (hlive : log.inUse = true) (htail : TailAtHead log) :
    Retaining (keptNow log) log := by
  rcases S.lines with h | E
  · obtain ⟨ls, I, hfit⟩ := h
    have hnow : keptNow log = ⟨log.keepEntries.toNat, ls⟩ := by
      have hcontents := I.contents
      simp only [logContentsArray, Bool.true_eq_false, if_false, I.read, Option.bind_eq_bind, Option.bind_some,
        Option.some.injEq, Prod.mk.injEq, and_true, Reply.mk.injEq] at hcontents
      rw [keptNow, I.read, Option.getD_some, hcontents.2]
    rw [hnow]
    exact ⟨I, hlive, rfl, hfit⟩
  · obtain ⟨_, a, hnext, _⟩ := E.queue
    rw [htail E.entries] at hnext
    cases hnext

theorem Retains.tailAtHead {k : Kept} {log : LogT} (h : Retains k log) : TailAtHead log := by
  obtain ⟨⟨cs, H, hlen⟩, _⟩ := h
  intro hentries
  rw [hentries] at hlen
  rw [List.eq_nil_of_length_eq_zero hlen] at H
  exact H.tail_eq_head.mpr rfl

theorem printedLine_append {events : List Event} (h : ∀ f text, Event.fprintf f text ∉ events)
    (rest : List Event) : printedLine (events ++ rest) = printedLine rest := by
  induction events with
  | nil => rfl
  | cons e events ih =>
    have hrest := ih fun f text hm => h f text (List.mem_cons_of_mem _ hm)
    cases e with
    | fprintf f text => exact absurd List.mem_cons_self (h f text)
    | fopen name => exact hrest
    | fclose f => exact hrest
    | rename old new => exact hrest
    | fflush f => exact hrest

theorem Retaining.congr {k : Kept} {log log' : LogT} (R : Retaining k log)
    (hlines : log'.lines = log.lines ∧ log'.total = log.total ∧ log'.entries = log.entries)
    (hkeep : log'.inUse = log.inUse ∧ log'.keepEntries = log.keepEntries) : Retaining k log' :=
  ⟨R.intact.congr hlines.1 hlines.2.1 hlines.2.2, hkeep.1.trans R.inUse,
    (congrArg BitVec.toNat hkeep.2).trans R.keep, R.fit⟩

theorem printedLine_quiet {events : List Event} (h : ∀ f text, Event.fprintf f text ∉ events) :
    printedLine events = none := by
  have happ := printedLine_append h []
  rwa [List.append_nil] at happ

theorem printedLine_fflush (events : List Event) (f : Option File) :
    printedLine (events ++ [.fflush f]) = printedLine events := by
  induction events with
  | nil => rfl
  | cons e events ih =>
    cases e with
    | fprintf g text => rfl
    | fopen name => exact ih
    | fclose g => exact ih
    | rename old new => exact ih
    | fflush g => exact ih

/-- `create_log_entry` follows the rule. -/
theorem createLogEntry_retaining (o : Outcome) {k : Kept} {log : LogT} {pre line : Bytes} {f : File}
    (R : Retaining k log) (hfile : log.logfile = some f) (ht : LineOk (pre ++ line)) :
    ∃ n log', createLogEntry o log pre line = some (n, [.fprintf f (pre ++ line ++ [lf])], log') ∧
      Retaining (wrote k (some (pre ++ line))) log' := by
  by_cases hkeep : log.keepEntries = 0
  · -- nothing is retained
    have hz : k.keep = 0 := by
      rw [← R.keep, hkeep]
      rfl
    refine ⟨o.fprintf, log, createLogEntry_unkept o log pre line hfile hkeep, ?_⟩
    · rw [wrote, if_pos hz]
      exact R
  · have hz : k.keep ≠ 0 := by
      rw [← R.keep]
      exact fun h => hkeep (BitVec.eq_of_toNat_eq h)
    obtain ⟨q, t, n, e, I⟩ := createLogEntry_spec o R.intact (R.keep ▸ R.fit) hfile ht hkeep
    refine ⟨_, _, e, ?_⟩
    rw [wrote, if_neg hz]
    rw [R.keep] at I
    exact ⟨I, R.inUse, R.keep, keepLast_length_le _ _⟩

/-- A write that has a file goes through, and the rule is followed; the line is printed unless the
file has to be opened and cannot. -/
theorem writeEntry_retaining (o : Outcome) {k : Kept} {log : LogT} {pre line : Bytes}
    (R : Retaining k log) (hfile : HasFile log) (ht : LineOk (pre ++ line)) :
    ∃ events log', writeEntry o pre line log = some (events, log') ∧
      Retaining (wrote k (printedLine events)) log' ∧
      (o.fopen ≠ none → printedLine events = some (pre ++ line)) := by
  obtain ⟨ok, events, file, size, hopen, hquiet, hno, hyes⟩ := logOpenSlot_spec o log
  cases ok with
  | false =>
    obtain ⟨_, hfopen⟩ := hno rfl R.inUse
    refine ⟨events, { log with logfile := file, size := size }, by rw [writeEntry, hopen], ?_, ?_⟩
    · rw [printedLine_quiet hquiet]
      exact R.congr ⟨rfl, rfl, rfl⟩ ⟨rfl, rfl⟩
    · intro hsome
      exact absurd hfopen hsome
  | true =>
    obtain ⟨f, rfl⟩ := Option.ne_none_iff_exists'.mp ((hyes rfl).2 hfile)
    have R' : Retaining k { log with logfile := some f, size := size } := R.congr ⟨rfl, rfl, rfl⟩ ⟨rfl, rfl⟩
    obtain ⟨n, log', e, R''⟩ := createLogEntry_retaining o R' rfl ht
    have hline : printedLine (events ++ [.fprintf f (pre ++ line ++ [lf])]) = some (pre ++ line) := by
      rw [printedLine_append hquiet, printedLine, List.dropLast_concat]
    refine ⟨events ++ [.fprintf f (pre ++ line ++ [lf])],
      if n > 0 then { log' with size := log'.size + n } else log', ?_, ?_, fun _ => hline⟩
    · rw [writeEntry, hopen]
      simp only [e, Option.bind_eq_bind, Option.bind_some]
    · rw [hline]
      split
      · exact R''.congr ⟨rfl, rfl, rfl⟩ ⟨rfl, rfl⟩
      · exact R''

/-- `_log_open` succeeds where there is neither file nor name. -/
theorem logOpenSlot_absent (o : Outcome) {log : LogT} (hlive : log.inUse = true) (hname : log.filename = none)
    (hfile : log.logfile = none) : logOpenSlot o log = (true, [], { log with size := 0 }) := by
  have hdead : ¬ log.inUse = false := by
    rw [hlive]
    exact Bool.noConfusion
  rw [logOpenSlot, if_neg hdead, if_pos (Or.inl hfile)]
  simp only [hname]

/-- A write without a file faults. -/
theorem writeEntry_absent (o : Outcome) {log : LogT} (pre line : Bytes) (hlive : log.inUse = true)
    (h : ¬HasFile log) : writeEntry o pre line log = none := by
  obtain ⟨hname, hfile⟩ : log.filename = none ∧ log.logfile = none := by simpa [HasFile] using h
  have hcreate : createLogEntry o { log with size := 0 } pre line = none := by
    unfold createLogEntry
    rw [Option.bind_eq_bind, bind_of_none hfile]
  rw [writeEntry, logOpenSlot_absent o hlive hname hfile]
  exact bind_of_none hcreate _

/-- Every call that meets the condition follows the rule. -/
theorem lineStep_keeps (id : Int) : Keeps (lineStep id) kept Retaining KeepsLines := by
  intro k call log hok R
  cases call with
  | setLinesKept count =>
    have hcount : count ≠ 0 ∨ k.lines = [] := by
      by_cases hc : count = 0
      · right
        have hz := R.intact.entries
        rw [hok hc] at hz
        exact List.eq_nil_of_length_eq_zero hz.symm
      · exact Or.inl hc
    have I : Intact { log with keepEntries := count } k.lines := R.intact.congr rfl rfl rfl
    obtain ⟨q, t, n, htrim, I'⟩ := trimTo_spec I (le_of_eq R.intact.entries.symm) hcount
    refine ⟨{}, _, ?_, I', R.inUse, rfl, keepLast_length_le _ _⟩
    have hlive : ¬ log.inUse = false := by
      rw [R.inUse]
      exact Bool.noConfusion
    show (logSetLinesKept count log).map _ = _
    rw [logSetLinesKept, if_neg hlive, htrim]
    rfl
  | write o priority date cat func line =>
    simp only [lineStep, LineCall.toSlot, slotStep, logWrite]
    by_cases hlevel : log.level < priority
    · rw [if_pos hlevel]
      exact ⟨{}, log, rfl, R⟩
    · rw [if_neg hlevel]
      by_cases hprior : priority = 0 ∨ priority.toNat > prior.length
      · rw [if_pos hprior]
        exact ⟨{}, log, rfl, R⟩
      · rw [if_neg hprior]
        obtain ⟨events, log', e, R', _⟩ :=
          writeEntry_retaining o R (hok ⟨hlevel, hprior⟩) (prefixed_ok date priority cat func line)
        exact ⟨{ events := events }, log', by rw [e]; rfl, R'⟩
  | writeDirect o line =>
    have ht : LineOk ([] ++ line.bytes) := text_ok line
    obtain ⟨events, log', e, R', _⟩ := writeEntry_retaining o R hok ht
    refine ⟨{ events := events ++ [.fflush log'.logfile] }, log', ?_, ?_⟩
    · show (writeEntry o [] line.bytes log).map _ = _
      rw [e]
      rfl
    · show Retaining (wrote k (printedLine (events ++ [.fflush log'.logfile]))) log'
      rw [printedLine_fflush]
      exact R'

/-- Asking for no line while there is one leaves the queue broken. -/
theorem setLinesKept_empties (id : Int) {k : Kept} {log log' : LogT} {reply : Reply} (R : Retaining k log)
    (hne : log.entries ≠ 0) (h : lineStep id (.setLinesKept 0) log = some (reply, log')) :
    log'.lines.Broken := by
  have hlines : k.lines ≠ [] := by
    intro hnil
    have hz := R.intact.entries
    rw [hnil] at hz
    exact hne (BitVec.eq_of_toNat_eq hz)
  have I : Intact { log with keepEntries := 0 } k.lines := R.intact.congr rfl rfl rfl
  obtain ⟨q, t, n, htrim, E⟩ := trimTo_zero I (le_of_eq R.intact.entries.symm) hlines
  have hlive : ¬ log.inUse = false := by
    rw [R.inUse]
    exact Bool.noConfusion
  have hstep : lineStep id (.setLinesKept 0) log =
      some ({}, { log with keepEntries := 0, lines := q, total := t, entries := n }) := by
    show (logSetLinesKept 0 log).map _ = _
    rw [logSetLinesKept, if_neg hlive, htrim]
    rfl
  rw [hstep] at h
  cases h
  exact E.queue

/-- A call that goes through outside the condition breaks the rule. -/
theorem lineStep_bad (id : Int) {k : Kept} {call : LineCall} {log log' : LogT} {reply : Reply}
    (R : Retaining k log) (bad : ¬KeepsLines call log) (h : lineStep id call log = some (reply, log')) :
    ¬Retains (kept k call reply) log' := by
  cases call with
  | setLinesKept count =>
    have hzero : count = 0 ∧ log.entries ≠ 0 := by simpa [KeepsLines] using bad
    obtain ⟨rfl, hne⟩ := hzero
    rintro ⟨⟨cs, H, _⟩, _⟩
    exact (setLinesKept_empties id R hne h).not_holds cs H
  | write o priority date cat func line =>
    -- it would have printed to no file
    obtain ⟨hpasses, hfile⟩ : Passes priority log ∧ ¬HasFile log := by simpa [KeepsLines] using bad
    have hnone : lineStep id (.write o priority date cat func line) log = none := by
      simp only [lineStep, LineCall.toSlot, slotStep, logWrite, if_neg hpasses.1, if_neg hpasses.2,
        writeEntry_absent o _ _ R.inUse hfile, Option.map_none]
    rw [hnone] at h
    cases h
  | writeDirect o line =>
    have hnone : lineStep id (.writeDirect o line) log = none := by
      simp only [lineStep, LineCall.toSlot, slotStep, logWriteDirect, writeEntry_absent o _ _ R.inUse bad,
        Option.map_none]
    rw [hnone] at h
    cases h

/-! Runs. -/

/-- What a C library answers that finds a file and prints all of it. -/
def fine : Outcome where
  fopen := some 1
  stat := some 0
  fprintf := 2
  timestamp := []

theorem nul_notMem_a : nul ∉ ([97] : Bytes) := by decide

/-- The line `a`. -/
def lineA : Text 1024 := ⟨[97], by decide, nul_notMem_a⟩

/-- A log that kept a line is closed, and its slot opened by name: that sets the tail back. -/
def reopened : List LogCall :=
  [.openFile (some 1), .on 0 (.setLinesKept 1), .on 0 (.writeDirect fine lineA), .on 0 .close,
    .open (some [97]) fine]

/-- Three lines are written where two are kept, and then one. -/
def threeLines : List LineCall :=
  [.setLinesKept 2, .writeDirect fine lineA, .writeDirect fine lineA, .writeDirect fine lineA, .setLinesKept 1]

end IcecastCommon.Log
