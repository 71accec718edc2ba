import IcecastCommon.Log.Retained

/- The size of a log file and its rotation. The slot's `size` comes from `stat` when the file is
   opened and goes up by what `create_log_entry` returns, which is one too many for a line that is
   kept; the trigger is a product of `unsigned`s. The file of the log's name is followed along: only
   its length matters. -/
namespace IcecastCommon.Log
open Library
open Encoding (Bytes nul lf cString)

/-! The file of a named log. -/

/-- A named log, the length of the file of that name (0 where there is none), and the bytes after
    which the file is to be rotated. -/
structure Named where
  log : LogT
  length : Nat
  limit : Nat

/-- What the file system answers during one write: `fopen`, and whether `rename` and `stat`
    succeed. `fprintf` writes its whole text. -/
structure FileAnswer where
  fopen : Option File
  renamed : Bool
  stat : Bool
  timestamp : Bytes
deriving DecidableEq, Repr

def isRename : Event → Bool
  | .rename _ _ => true
  | _ => false

/-- Whether a call has renamed the file. -/
def rotated (events : List Event) : Bool := events.any isRename

/-- The length of the file after what a call has done. -/
def lengthAfter (renamed : Bool) : Nat → List Event → Nat
  | n, [] => n
  | n, .rename _ _ :: events => lengthAfter renamed (if renamed then 0 else n) events
  | n, .fprintf _ text :: events => lengthAfter renamed (n + text.length) events
  | n, .fopen _ :: events => lengthAfter renamed n events
  | n, .fclose _ :: events => lengthAfter renamed n events
  | n, .fflush _ :: events => lengthAfter renamed n events

/-- The outcomes for a write of `text`; `stat` comes behind the renaming. -/
def FileAnswer.outcome (a : FileAnswer) (w : Named) (text : Bytes) : Outcome where
  fopen := a.fopen
  stat :=
    let before : Outcome := { fopen := a.fopen, stat := none, fprintf := 0, timestamp := a.timestamp }
    if a.stat then some (lengthAfter a.renamed w.length (logOpenSlot before w.log).2.1 : Nat) else none
  fprintf := text.length
  timestamp := a.timestamp

/-- The calls. -/
inductive NamedCall where
  | setTrigger (kb : BitVec 32)
  | setLinesKept (count : BitVec 32)
  | write (a : FileAnswer) (priority : BitVec 32) (date : Text 256) (cat func : Bytes) (line : Text 1024)
  | writeDirect (a : FileAnswer) (line : Text 1024)

/-- A line that was to be written: the length of the file and the limit before, and whether the file
    was rotated. -/
structure Written where
  length : Nat
  limit : Nat
  rotated : Bool
deriving DecidableEq, Repr

/-- A write with the file it writes to. -/
def writeNamed (id : Int) (call : SlotCall) (a : FileAnswer) (passes : Bool) (w : Named) :
    Option (Option Written × Named) :=
  (slotStep id call w.log).map fun r =>
    (if passes then some ⟨w.length, w.limit, rotated r.1.events⟩ else none,
      ⟨r.2, lengthAfter a.renamed w.length r.1.events, w.limit⟩)

def namedStep (id : Int) : NamedCall → Named → Option (Option Written × Named)
  | .setTrigger kb, w =>
    (slotStep id (.setTrigger kb) w.log).map fun r => (none, ⟨r.2, w.length, kb.toNat * 1024⟩)
  | .setLinesKept count, w =>
    (slotStep id (.setLinesKept count) w.log).map fun r => (none, ⟨r.2, w.length, w.limit⟩)
  | .write a priority date cat func line, w =>
    let o := a.outcome w (linePrefix date priority cat func ++ line.bytes ++ [lf])
    writeNamed id (.write o priority date cat func line) a (Passes priority w.log) w
  | .writeDirect a line, w =>
    let o := a.outcome w ([] ++ line.bytes ++ [lf])
    writeNamed id (.writeDirect o line) a true w

/-- The lines written so far, latest first. -/
def writings (ws : List Written) (_ : NamedCall) (o : Option Written) : List Written := o.toList ++ ws

/-- The slot's size is the length of the file, and every write has rotated the file exactly when it
    was longer than the limit. -/
def Follows (ws : List Written) (w : Named) : Prop :=
  w.log.size = w.length ∧ ∀ x ∈ ws, x.rotated = true ↔ x.limit ≠ 0 ∧ x.limit < x.length

/-! When a write keeps to this. -/

/-- The file is longer than the product that is stored. -/
def Over (w : Named) : Prop := w.limit % 2 ^ 32 ≠ 0 ∧ w.limit % 2 ^ 32 < w.length

/-- The file is open and over. -/
def Rotates (w : Named) : Prop := w.log.logfile ≠ none ∧ Over w

/-- The file is to be opened. -/
def Reopens (w : Named) : Prop := w.log.logfile = none ∨ Over w

instance (w : Named) : Decidable (Over w) := by
  unfold Over
  infer_instance

instance (w : Named) : Decidable (Rotates w) := by
  unfold Rotates
  infer_instance

instance (w : Named) : Decidable (Reopens w) := by
  unfold Reopens
  infer_instance

/-- There is a file to write to. -/
def Prints (a : FileAnswer) (w : Named) : Prop := Reopens w → a.fopen ≠ none

instance (a : FileAnswer) (w : Named) : Decidable (Prints a w) := by
  unfold Prints
  infer_instance

/-- The length of the file that is opened. -/
def openedLength (a : FileAnswer) (w : Named) : Nat := if Rotates w ∧ a.renamed then 0 else w.length

/-- The condition on a write: the stored product decides as the limit does, a file that has been
    renamed away can be opened anew, and where a line is written none is kept and `stat` does not fail
    on a file that holds something. -/
structure WriteOk (a : FileAnswer) (w : Named) : Prop where
  decided : w.limit ≠ 0 ∧ w.limit < w.length ↔ Rotates w
  moved : Rotates w → a.fopen = none → a.renamed = false
  unkept : Prints a w → w.log.keepEntries = 0
  statted : Prints a w → Reopens w → a.stat = true ∨ openedLength a w = 0

instance (a : FileAnswer) (w : Named) : Decidable (WriteOk a w) :=
  decidable_of_iff ((w.limit ≠ 0 ∧ w.limit < w.length ↔ Rotates w) ∧
      (Rotates w → a.fopen = none → a.renamed = false) ∧ (Prints a w → w.log.keepEntries = 0) ∧
      (Prints a w → Reopens w → a.stat = true ∨ openedLength a w = 0))
    ⟨fun h => ⟨h.1, h.2.1, h.2.2.1, h.2.2.2⟩, fun h => ⟨h.decided, h.moved, h.unkept, h.statted⟩⟩

/-- The condition on a call. -/
def CountsRight : NamedCall → Named → Prop
  | .setTrigger _, _ => True
  | .setLinesKept _, _ => True
  | .write a priority _ _ _ _, w => Passes priority w.log → WriteOk a w
  | .writeDirect a _, w => WriteOk a w

instance (call : NamedCall) (w : Named) : Decidable (CountsRight call w) :=
  match call with
  | .setTrigger _ => isTrue trivial
  | .setLinesKept _ => isTrue trivial
  | .write a priority _ _ _ _ => inferInstanceAs (Decidable (Passes priority w.log → WriteOk a w))
  | .writeDirect a _ => inferInstanceAs (Decidable (WriteOk a w))

/-! One write. -/

theorem rotated_append (xs ys : List Event) : rotated (xs ++ ys) = (rotated xs || rotated ys) :=
  List.any_append

theorem lengthAfter_append (renamed : Bool) (n : Nat) (xs ys : List Event) :
    lengthAfter renamed n (xs ++ ys) = lengthAfter renamed (lengthAfter renamed n xs) ys := by
  induction xs generalizing n with
  | nil => rfl
  | cons e xs ih => cases e <;> exact ih _

/-- What holds of a named log as long as no line has been kept. -/
structure Following (ws : List Written) (w : Named) : Prop where
  retaining : Retaining ⟨w.log.keepEntries.toNat, []⟩ w.log
  name : w.log.filename ≠ none
  trigger : w.log.triggerLevel = (w.limit % 2 ^ 32 : Nat)
  follows : Follows ws w

/-- `_log_open` on a named log. -/
theorem logOpenSlot_named {ws : List Written} {w : Named} (F : Following ws w) (o : Outcome) :
    ∃ events, (∀ f text, Event.fprintf f text ∉ events) ∧ rotated events = decide (Rotates w) ∧
      (∀ a : FileAnswer, lengthAfter a.renamed w.length events = openedLength a w) ∧
      logOpenSlot o w.log = (decide (Reopens w → o.fopen ≠ none), events,
        if Reopens w then
          { w.log with
            logfile := o.fopen
            size := if o.fopen = none then w.log.size else o.stat.getD 0 }
        else w.log) := by
  obtain ⟨name, hname⟩ := Option.ne_none_iff_exists'.1 F.name
  have hsize : w.log.size = w.length := F.follows.1
  have hover : (w.log.triggerLevel ≠ 0 ∧ w.log.size > w.log.triggerLevel) ↔ Over w := by
    rw [F.trigger, hsize]
    unfold Over
    omega
  have hreopens : (w.log.logfile = none ∨ w.log.triggerLevel ≠ 0 ∧ w.log.size > w.log.triggerLevel) ↔
      Reopens w := or_congr Iff.rfl hover
  rw [logOpenSlot, if_neg (by rw [F.retaining.inUse]; decide)]
  by_cases hre : Reopens w
  · rw [if_pos (hreopens.2 hre), if_pos hre, hname]
    cases hfile : w.log.logfile with
    | none =>
      have hrot : ¬Rotates w := fun hr => hr.1 hfile
      refine ⟨[.fopen name], by simp, by simp [rotated, isRename, hrot], by simp [lengthAfter, openedLength, hrot], ?_⟩
      cases o.fopen with
      | none =>
        simp [hre]
        rw [← hfile]
      | some f => simp [hre, hname]
    | some f =>
      have hrot : Rotates w := ⟨by simp [hfile], hre.resolve_left (by simp [hfile])⟩
      refine ⟨[.fclose f, .rename name (archiveName o w.log name), .fopen name], by simp,
        by simp [rotated, isRename, hrot], by simp [lengthAfter, openedLength, hrot], ?_⟩
      cases o.fopen with
      | none => simp [hre, hname]
      | some f => simp [hre, hname]
  · have hrot : ¬Rotates w := fun hr => hre (Or.inr hr.2)
    rw [if_neg (mt hreopens.1 hre), if_neg hre]
    exact ⟨[], by simp, by simp [rotated, hrot], by simp [lengthAfter, openedLength, hrot],
      by simp [hre]⟩

/-- The size that `_log_open` leaves. -/
def openedSize (a : FileAnswer) (w : Named) : Nat :=
  if Reopens w then if a.stat then openedLength a w else 0 else w.length

/-- `stat` gives the length of the file that is opened. -/
theorem outcome_stat {ws : List Written} {w : Named} (F : Following ws w) (a : FileAnswer) (text : Bytes) :
    (a.outcome w text).stat = if a.stat then some (openedLength a w : Int) else none := by
  obtain ⟨events, -, -, hlength, hopen⟩ :=
    logOpenSlot_named F { fopen := a.fopen, stat := none, fprintf := 0, timestamp := a.timestamp }
  rw [FileAnswer.outcome]
  dsimp only
  rw [hopen, hlength]

/-- The fields that a write leaves alone. -/
def SameNamed (log log' : LogT) : Prop :=
  log'.filename = log.filename ∧ log'.triggerLevel = log.triggerLevel ∧ log'.keepEntries = log.keepEntries

/-- The slot behind `_log_open`. -/
def openedLog (a : FileAnswer) (w : Named) : LogT :=
  if Reopens w then
    { w.log with logfile := a.fopen, size := if a.fopen = none then w.log.size else openedSize a w }
  else w.log

theorem openedLog_retaining {ws : List Written} {w : Named} (F : Following ws w) (a : FileAnswer) :
    Retaining ⟨w.log.keepEntries.toNat, []⟩ (openedLog a w) := by
  unfold openedLog
  split
  · exact F.retaining.congr ⟨rfl, rfl, rfl⟩ ⟨rfl, rfl⟩
  · exact F.retaining

theorem openedLog_same (a : FileAnswer) (w : Named) : SameNamed w.log (openedLog a w) := by
  unfold openedLog
  split
  · exact ⟨rfl, rfl, rfl⟩
  · exact ⟨rfl, rfl, rfl⟩

theorem openedLog_size {ws : List Written} {w : Named} (F : Following ws w) (a : FileAnswer) :
    (openedLog a w).size = (if Prints a w then openedSize a w else w.length : Nat) := by
  have hsize : w.log.size = w.length := F.follows.1
  unfold openedLog openedSize Prints
  by_cases hre : Reopens w
  · by_cases hfile : a.fopen = none
    · simp [hre, hfile, hsize]
    · simp [hre, hfile]
  · simp [hre, hsize]

theorem openedLog_file {w : Named} {a : FileAnswer} (h : Prints a w) : (openedLog a w).logfile ≠ none := by
  unfold openedLog
  split
  · next hre => exact h hre
  · next hre => exact fun hnone => hre (Or.inl hnone)

/-- What `create_log_entry` returns: the length of the text, and one more for a line that is kept. -/
def counted (log : LogT) (text : Bytes) : Nat := text.length + if log.keepEntries = 0 then 0 else 1

theorem createLogEntry_named {log : LogT} {f : File} (R : Retaining ⟨log.keepEntries.toNat, []⟩ log)
    (hfile : log.logfile = some f) {o : Outcome} {pre line : Bytes} (ht : LineOk (pre ++ line))
    (ho : o.fprintf = (pre ++ line ++ [lf]).length) :
    ∃ log', createLogEntry o log pre line =
        some ((counted log (pre ++ line ++ [lf]) : Int), [.fprintf f (pre ++ line ++ [lf])], log') ∧
      log'.size = log.size ∧ SameNamed log log' ∧ (log.keepEntries = 0 → log' = log) := by
  by_cases hkeep : log.keepEntries = 0
  · refine ⟨log, ?_, rfl, ⟨rfl, rfl, rfl⟩, fun _ => rfl⟩
    rw [createLogEntry_unkept o log pre line hfile hkeep, ho, counted, if_pos hkeep, Nat.add_zero]
  · obtain ⟨q, t, n, hcreate, -⟩ := createLogEntry_spec o R.intact (Nat.zero_le _) hfile ht hkeep
    refine ⟨{ log with lines := q, total := t, entries := n }, ?_, rfl, ⟨rfl, rfl, rfl⟩,
      fun hzero => absurd hzero hkeep⟩
    have hlen : (entryOf (pre ++ line)).len.toInt = (counted log (pre ++ line ++ [lf]) : Int) := by
      have hshort := ht.2
      have hend : (pre ++ line ++ [lf]).length = (pre ++ line).length + 1 := List.length_append
      rw [BitVec.toInt_eq_toNat_of_lt (by rw [entryOf_len ht]; omega), entryOf_len ht, counted, if_neg hkeep, hend]
    rw [hcreate, hlen]

/-- What a write of a line does to the file and the slot: the size goes up by a byte too many where the
    line is kept. -/
structure WriteDone (a : FileAnswer) (w : Named) (text : Bytes) (events : List Event) (log' : LogT) : Prop where
  renames : rotated events = decide (Rotates w)
  length : lengthAfter a.renamed w.length events = openedLength a w + if Prints a w then text.length else 0
  size : log'.size = (if Prints a w then openedSize a w + counted w.log text else w.length : Nat)
  same : SameNamed w.log log'
  retaining : (Prints a w → w.log.keepEntries = 0) → Retaining ⟨w.log.keepEntries.toNat, []⟩ log'

theorem writeEntry_named {ws : List Written} {w : Named} (F : Following ws w) (a : FileAnswer)
    {pre line : Bytes} (ht : LineOk (pre ++ line)) :
    ∃ events log', writeEntry (a.outcome w (pre ++ line ++ [lf])) pre line w.log = some (events, log') ∧
      WriteDone a w (pre ++ line ++ [lf]) events log' := by
  obtain ⟨events, hquiet, hrot, hlength, hopen⟩ := logOpenSlot_named F (a.outcome w (pre ++ line ++ [lf]))
  have hopened : logOpenSlot (a.outcome w (pre ++ line ++ [lf])) w.log =
      (decide (Prints a w), events, openedLog a w) := by
    rw [hopen, outcome_stat F]
    unfold openedLog openedSize Prints FileAnswer.outcome
    dsimp only
    by_cases hre : Reopens w
    · cases a.stat <;> simp [hre]
    · simp [hre]
  have hsame := openedLog_same a w
  have hsize := openedLog_size F a
  by_cases hprints : Prints a w
  · obtain ⟨f, hfile⟩ := Option.ne_none_iff_exists'.1 (openedLog_file hprints)
    have hkeep : (openedLog a w).keepEntries = w.log.keepEntries := hsame.2.2
    have R := openedLog_retaining F a
    rw [← hkeep] at R
    obtain ⟨log', hcreate, hsize', hsame', hunkept⟩ := createLogEntry_named (o := a.outcome w (pre ++ line ++ [lf]))
      R hfile ht rfl
    have hpos : (counted (openedLog a w) (pre ++ line ++ [lf]) : Int) > 0 := by
      unfold counted
      simp only [List.length_append, List.length_cons]
      omega
    refine ⟨events ++ [.fprintf f (pre ++ line ++ [lf])],
      { log' with size := log'.size + counted (openedLog a w) (pre ++ line ++ [lf]) }, ?_, ?_, ?_, ?_, ?_, ?_⟩
    · rw [writeEntry, hopened, decide_eq_true hprints]
      dsimp only
      rw [hcreate, Option.bind_eq_bind, Option.bind_some]
      dsimp only
      rw [if_pos hpos]
    · rw [rotated_append, hrot]
      exact Bool.or_false _
    · rw [lengthAfter_append, hlength, if_pos hprints]
      rfl
    · rw [if_pos hprints]
      dsimp only
      rw [hsize', hsize, if_pos hprints, counted, hkeep]
      rfl
    · exact ⟨hsame'.1.trans hsame.1, hsame'.2.1.trans hsame.2.1, hsame'.2.2.trans hsame.2.2⟩
    · intro hzero
      rw [hunkept (hkeep.trans (hzero hprints))]
      exact (openedLog_retaining F a).congr ⟨rfl, rfl, rfl⟩ ⟨rfl, rfl⟩
  · refine ⟨events, openedLog a w, ?_, hrot, ?_, ?_, hsame, fun _ => openedLog_retaining F a⟩
    · rw [writeEntry, hopened, decide_eq_false hprints]
    · rw [hlength, if_neg hprints, Nat.add_zero]
    · rw [hsize, if_neg hprints, if_neg hprints]

/-- The size of a file that is opened, where `stat` does not fail or finds nothing. -/
theorem openedSize_eq {a : FileAnswer} {w : Named} (h : Reopens w → a.stat = true ∨ openedLength a w = 0) :
    openedSize a w = openedLength a w := by
  unfold openedSize
  by_cases hre : Reopens w
  · rw [if_pos hre]
    rcases h hre with hstat | hzero
    · rw [if_pos hstat]
    · split
      · rfl
      · exact hzero.symm
  · have hrot : ¬Rotates w := fun hr => hre (Or.inr hr.2)
    rw [if_neg hre, openedLength, if_neg fun hboth => hrot hboth.1]

/-- A file that is not rotated keeps its length. -/
theorem openedLength_eq {a : FileAnswer} {w : Named} (h : Rotates w → a.renamed = false) :
    openedLength a w = w.length := by
  rw [openedLength, if_neg]
  rintro ⟨hrot, hrenamed⟩
  rw [h hrot] at hrenamed
  cases hrenamed

section
variable {ws : List Written} {w : Named} {a : FileAnswer} {text : Bytes} {events : List Event} {log' : LogT}

/-- A write under the condition. -/
theorem Following.write (F : Following ws w) (ok : WriteOk a w) (D : WriteDone a w text events log') :
    Following (⟨w.length, w.limit, rotated events⟩ :: ws)
      ⟨log', lengthAfter a.renamed w.length events, w.limit⟩ := by
  obtain ⟨hname, htrigger, hkeep⟩ := D.same
  refine ⟨?_, hname ▸ F.name, htrigger ▸ F.trigger, ?_, ?_⟩
  · dsimp only
    rw [hkeep]
    exact D.retaining ok.unkept
  · dsimp only
    rw [D.size, D.length]
    by_cases hprints : Prints a w
    · rw [if_pos hprints, if_pos hprints, openedSize_eq (ok.statted hprints), counted,
        if_pos (ok.unkept hprints), Nat.add_zero]
    · rw [if_neg hprints, if_neg hprints, Nat.add_zero, openedLength_eq]
      intro hr
      apply ok.moved hr
      by_contra hfile
      exact hprints fun _ => hfile
  · intro x hx
    rcases List.mem_cons.1 hx with rfl | hx
    · rw [D.renames, decide_eq_true_eq]
      exact ok.decided.symm
    · exact F.follows.2 x hx

/-- A write outside it, with a `stat` that does not fail. -/
theorem WriteDone.not_follows (D : WriteDone a w text events log') (bad : ¬WriteOk a w) (hstat : a.stat = true) :
    ¬Follows (⟨w.length, w.limit, rotated events⟩ :: ws)
      ⟨log', lengthAfter a.renamed w.length events, w.limit⟩ := by
  rintro ⟨heq, hrule⟩
  dsimp only at heq
  rw [D.size, D.length] at heq
  apply bad
  refine ⟨?_, ?_, ?_, fun _ _ => Or.inl hstat⟩
  · have hone := hrule _ List.mem_cons_self
    rw [D.renames, decide_eq_true_eq] at hone
    exact hone.symm
  · intro hr hfile
    by_contra hrenamed
    have hnot : ¬Prints a w := fun hprints => hprints (Or.inr hr.2) hfile
    have hzero : openedLength a w = 0 := if_pos ⟨hr, by simpa using hrenamed⟩
    have hlong := hr.2.2
    rw [if_neg hnot, if_neg hnot, hzero] at heq
    omega
  · intro hprints
    by_contra hkeep
    rw [if_pos hprints, if_pos hprints, openedSize_eq fun _ => Or.inl hstat, counted, if_neg hkeep] at heq
    omega

/-- The call writes a line, with this answer. -/
def Writes : NamedCall → FileAnswer → Named → Prop
  | .write b priority _ _ _ _, a, w => a = b ∧ Passes priority w.log
  | .writeDirect b _, a, _ => a = b
  | _, _, _ => False

theorem namedStep_write (id : Int) (F : Following ws w) {call : NamedCall} (h : Writes call a w) :
    ∃ text events log', namedStep id call w = some (some ⟨w.length, w.limit, rotated events⟩,
        ⟨log', lengthAfter a.renamed w.length events, w.limit⟩) ∧ WriteDone a w text events log' := by
  cases call with
  | setTrigger kb => exact h.elim
  | setLinesKept count => exact h.elim
  | write b priority date cat func line =>
    obtain ⟨rfl, hlevel, hprior⟩ := h
    obtain ⟨events, log', hwrite, D⟩ := writeEntry_named F a (prefixed_ok date priority cat func line)
    refine ⟨_, events, log', ?_, D⟩
    simp only [namedStep, writeNamed, slotStep, logWrite, if_neg hlevel, if_neg hprior]
    rw [hwrite, decide_eq_true ⟨hlevel, hprior⟩]
    rfl
  | writeDirect b line =>
    obtain rfl := h
    have ht : LineOk ([] ++ line.bytes) := text_ok line
    obtain ⟨events, log', hwrite, D⟩ := writeEntry_named F a ht
    have hrot : rotated (events ++ [.fflush log'.logfile]) = rotated events := by
      rw [rotated_append]
      exact Bool.or_false _
    have hlength : lengthAfter a.renamed w.length (events ++ [.fflush log'.logfile]) =
        lengthAfter a.renamed w.length events := lengthAfter_append _ _ _ _
    refine ⟨_, events, log', ?_, D⟩
    simp only [namedStep, writeNamed, slotStep, logWriteDirect]
    rw [hwrite]
    dsimp only [Option.map_some]
    rw [hrot, hlength]
    rfl

end

/-! Runs. -/

/-- A message that does not pass does nothing. -/
theorem namedStep_silent (id : Int) {w : Named} (a : FileAnswer) {priority : BitVec 32} (date : Text 256)
    (cat func : Bytes) (line : Text 1024) (h : ¬Passes priority w.log) :
    namedStep id (.write a priority date cat func line) w = some (none, w) := by
  simp only [namedStep, writeNamed, slotStep, logWrite]
  rw [decide_eq_false h]
  by_cases hlevel : w.log.level < priority
  · rw [if_pos hlevel]
    rfl
  · have hprior : priority = 0 ∨ priority.toNat > prior.length := by
      by_contra hnot
      exact h ⟨hlevel, hnot⟩
    rw [if_neg hlevel, if_pos hprior]
    rfl

theorem namedStep_keeps (id : Int) : Keeps (namedStep id) writings Following CountsRight := by
  intro ws call w ok F
  have hlive : ¬w.log.inUse = false := by
    rw [F.retaining.inUse]
    decide
  cases call with
  | setTrigger kb =>
    refine ⟨none, ⟨logSetTrigger kb w.log, w.length, kb.toNat * 1024⟩, rfl, ?_⟩
    have hset : logSetTrigger kb w.log = { w.log with triggerLevel := ((kb * 1024).toNat : Int) } :=
      if_pos F.retaining.inUse
    rw [hset]
    refine ⟨F.retaining.congr ⟨rfl, rfl, rfl⟩ ⟨rfl, rfl⟩, F.name, ?_, F.follows.1, F.follows.2⟩
    exact congrArg Int.ofNat (BitVec.toNat_mul kb 1024)
  | setLinesKept count =>
    have hentries : w.log.entries = 0 := BitVec.eq_of_toNat_eq F.retaining.intact.entries
    refine ⟨none, ⟨{ w.log with keepEntries := count }, w.length, w.limit⟩, ?_, ?_⟩
    · show ((logSetLinesKept count w.log).map _).map _ = _
      rw [logSetLinesKept, if_neg hlive, @trimTo_nothing { w.log with keepEntries := count } hentries]
      rfl
    · exact ⟨⟨F.retaining.intact.congr rfl rfl rfl, F.retaining.inUse, rfl, Nat.zero_le _⟩,
        F.name, F.trigger, F.follows.1, F.follows.2⟩
  | write a priority date cat func line =>
    by_cases hpasses : Passes priority w.log
    · have hwrites : Writes (.write a priority date cat func line) a w := ⟨rfl, hpasses⟩
      obtain ⟨text, events, log', hstep, D⟩ := namedStep_write id F hwrites
      exact ⟨_, _, hstep, F.write (ok hpasses) D⟩
    · exact ⟨none, w, namedStep_silent id a date cat func line hpasses, F⟩
  | writeDirect a line =>
    have hwrites : Writes (.writeDirect a line) a w := rfl
    obtain ⟨text, events, log', hstep, D⟩ := namedStep_write id F hwrites
    exact ⟨_, _, hstep, F.write ok D⟩

/-- The answers to the call have a `stat` that does not fail. -/
def NamedCall.Stats : NamedCall → Prop
  | .write a _ _ _ _ _ => a.stat = true
  | .writeDirect a _ => a.stat = true
  | _ => True

/-- A call outside the condition does not follow the size. -/
theorem namedStep_bad (id : Int) {ws : List Written} {call : NamedCall} {w w' : Named} {o : Option Written}
    (F : Following ws w) (hstat : call.Stats) (bad : ¬CountsRight call w)
    (hstep : namedStep id call w = some (o, w')) : ¬Follows (writings ws call o) w' := by
  have hwrite {a : FileAnswer} (hwrites : Writes call a w) (hok : ¬WriteOk a w) (ha : a.stat = true) :
      ¬Follows (writings ws call o) w' := by
    obtain ⟨text, events, log', hdone, D⟩ := namedStep_write id F hwrites
    rw [hdone] at hstep
    cases hstep
    exact D.not_follows hok ha
  cases call with
  | setTrigger kb => exact absurd trivial bad
  | setLinesKept count => exact absurd trivial bad
  | write a priority date cat func line =>
    by_cases hpasses : Passes priority w.log
    · exact hwrite (a := a) ⟨rfl, hpasses⟩ (fun hok => bad fun _ => hok) hstat
    · exact absurd (fun hp => absurd hp hpasses) bad
  | writeDirect a line => exact hwrite (a := a) rfl bad hstat

/-- A named log whose file holds `length` bytes; a trigger level set before stays in force. -/
def openedNamed (length : Nat) (log : LogT) : Named := ⟨log, length, log.triggerLevel.toNat⟩

/-- Any log that `log_open` opens, where the `stat` finds its file. -/
theorem openedNamed_following {before : List LogCall} {replies : List Reply} {loglist loglist' : Loglist}
    {filename : Option Bytes} {o : Outcome} {length : Nat} {i : Fin logMaxlogs}
    (hbefore : runCalls logStep before loglistInitialize = some (replies, loglist))
    (hstat : o.stat = some (length : Int)) (hopen : (logOpen filename o loglist).2 = (loglist', some i)) :
    Following [] (openedNamed length (loglist' i)) := by
  obtain ⟨name, f, _, _, hidle, hlog⟩ := logOpen_opened hopen
  have S := reached_settled hbefore i
  obtain ⟨_, htotal⟩ := S.unlined (S.idle hidle).2
  obtain ⟨hpos, hlt⟩ := S.trigger
  rw [hlog]
  refine ⟨⟨intact_nil (Queue.holds_reset _) rfl htotal, rfl, rfl, Nat.zero_le _⟩, Option.some_ne_none _, ?_, ?_, ?_⟩
  · show (loglist i).triggerLevel = ((loglist i).triggerLevel.toNat % 2 ^ 32 : Nat)
    omega
  · show o.stat.getD _ = (length : Int)
    rw [hstat]
    rfl
  · intro x hx
    cases hx

/-- On any log that `log_open` opens, the size is the length of the file after every call of a run, and every
write rotates as the limit asks, if all its writes meet the condition; and only then, as long as no `stat` fails. -/
theorem rotation_follows {before : List LogCall} {replies : List Reply} {loglist loglist' : Loglist}
    {filename : Option Bytes} {o : Outcome} {length : Nat} {i : Fin logMaxlogs}
    (hbefore : runCalls logStep before loglistInitialize = some (replies, loglist))
    (hstat : o.stat = some (length : Int)) (hopen : (logOpen filename o loglist).2 = (loglist', some i))
    (calls : List NamedCall) :
    (Meets (namedStep i.val) CountsRight calls (openedNamed length (loglist' i)) →
      ∀ done, done <+: calls → ∃ outs w,
        runCalls (namedStep i.val) done (openedNamed length (loglist' i)) = some (outs, w) ∧
          Follows (history writings [] done outs) w) ∧
    ((∀ call ∈ calls, call.Stats) →
      (∀ done, done <+: calls → ∃ outs w,
        runCalls (namedStep i.val) done (openedNamed length (loglist' i)) = some (outs, w) ∧
          Follows (history writings [] done outs) w) →
      Meets (namedStep i.val) CountsRight calls (openedNamed length (loglist' i))) := by
  have F := openedNamed_following hbefore hstat hopen
  constructor
  · exact (namedStep_keeps i.val).always (fun _ _ F => F.follows) F
  · intro hstats
    exact (namedStep_keeps i.val).meets (fun ws call w out w' F => namedStep_bad i.val F) hstats F

/-- A log that is to be rotated at two kilobytes is closed. -/
def closedRun : List LogCall :=
  [.open (some [98]) fine, .on 0 (.setTrigger 2), .on 0 (.writeDirect fine lineA), .on 0 .close]

/-- A C library that finds a file of 1500 bytes. -/
def finds1500 : Outcome := { fine with stat := some (1500 : Nat) }

/-- A line, and one more at one kilobyte. -/
def kilobyteRun : List NamedCall :=
  [.writeDirect ⟨some 1, true, true, []⟩ lineA, .setTrigger 1, .writeDirect ⟨some 2, true, true, []⟩ lineA]

/-- In the slot of the closed log a file of 1500 bytes is written; at a kilobyte it is rotated before the line goes
to the new one. -/
theorem rotation_follows_kilobyte :
    ∃ replies loglist loglist', runCalls logStep closedRun loglistInitialize = some (replies, loglist) ∧
      (logOpen (some [97]) finds1500 loglist).2 = (loglist', some 0) ∧
      ∃ outs w, runCalls (namedStep 0) kilobyteRun (openedNamed 1500 (loglist' 0)) = some (outs, w) ∧
        Follows (history writings [] kilobyteRun outs) w := by
  obtain ⟨replies, loglist, loglist', hrun, hopen, hmeets⟩ : ∃ replies loglist loglist',
      runCalls logStep closedRun loglistInitialize = some (replies, loglist) ∧
        (logOpen (some [97]) finds1500 loglist).2 = (loglist', some 0) ∧
        meetsCheck (namedStep 0) CountsRight kilobyteRun (openedNamed 1500 (loglist' 0)) = true :=
    ⟨_, _, _, rfl, rfl, by decide⟩
  exact ⟨replies, loglist, loglist', hrun, hopen,
    (rotation_follows hrun rfl hopen kilobyteRun).1 (Meets.of_check hmeets) _ (List.prefix_refl _)⟩

/-- One line while one is to be kept: the file holds two bytes, and three are counted. -/
theorem rotation_drifts :
    ∃ loglist', (logOpen (some [97]) fine loglistInitialize).2 = (loglist', some 0) ∧
      ¬∀ done, done <+: [NamedCall.setLinesKept 1, .writeDirect ⟨some 1, true, true, []⟩ lineA] → ∃ outs w,
        runCalls (namedStep 0) done (openedNamed 0 (loglist' 0)) = some (outs, w) ∧
          Follows (history writings [] done outs) w := by
  refine ⟨_, rfl, ?_⟩
  intro hall
  obtain ⟨outs, w, hrun, hsize, -⟩ := hall _ (List.prefix_refl _)
  obtain ⟨hone, hthree⟩ : w.length = 2 ∧ w.log.size = 3 := by
    cases hrun
    exact ⟨rfl, rfl⟩
  rw [hone, hthree] at hsize
  exact absurd hsize (by decide)

end IcecastCommon.Log
