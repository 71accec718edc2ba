import IcecastCommon.Log.Retained

/- `_log_open` succeeds for a log without a name whatever its file is, since such a log is
   one that `log_open_file` opened. But a name can be taken away while the file is closed to
   be reopened, and then the next line is printed to no file. -/
namespace IcecastCommon.Log
open Library
open Encoding (Bytes nul lf cString)

/-- The calls on one slot that have to do with files. -/
inductive FileCall where
  | setTrigger (trigger : BitVec 32)
  | setFilename (filename : Option Bytes)
  | reopen
  | close
  | write (o : Outcome) (priority : BitVec 32) (date : Text 256) (cat func : Bytes) (line : Text 1024)
  | writeDirect (o : Outcome) (line : Text 1024)

def FileCall.toSlot : FileCall → SlotCall
  | .setTrigger trigger => .setTrigger trigger
  | .setFilename filename => .setFilename filename
  | .reopen => .reopen
  | .close => .close
  | .write o priority date cat func line => .write o priority date cat func line
  | .writeDirect o line => .writeDirect o line

/-- The calls that have to do with files. -/
inductive FilesCall where
  | openFile (file : Option File)
  | open (filename : Option Bytes) (o : Outcome)
  | on (id : Int) (call : FileCall)

def FilesCall.toLog : FilesCall → LogCall
  | .openFile file => .openFile file
  | .open filename o => .open filename o
  | .on id call => .on id call.toSlot

def filesStep (call : FilesCall) (loglist : Loglist) : Option (Reply × Loglist) :=
  logStep call.toLog loglist

/-- Whatever the C library answers, a file is open when `_log_open` has succeeded. -/
def OpensFile (log : LogT) : Prop :=
  ∀ o, (logOpenSlot o log).1 = true → (logOpenSlot o log).2.2.logfile ≠ none

/-- A name is taken away only while the file is open. -/
def NamesOpenFile : FilesCall → Loglist → Prop
  | .on id (.setFilename none), loglist =>
    ∀ i : Fin logMaxlogs, id = i.val → (loglist i).inUse = true → (loglist i).logfile ≠ none
  | _, _ => True

/-- The invariant of a slot: in use it has a name or a file, and it keeps no lines. -/
structure Reached (log : LogT) : Prop where
  reach : log.inUse = true → log.filename ≠ none ∨ log.logfile ≠ none
  keep : log.keepEntries = 0
  entries : log.entries = 0

theorem Reached.opens {log : LogT} (R : Reached log) : OpensFile log := by
  intro o hok
  obtain ⟨ok, events, file, size, hopen, _, _, hyes⟩ := logOpenSlot_spec o log
  rw [hopen] at hok ⊢
  obtain ⟨hlive, hfile⟩ := hyes hok
  exact hfile (R.reach hlive)

/-- A log in use that has neither name nor file. -/
theorem not_opensFile {log : LogT} (hlive : log.inUse = true) (hname : log.filename = none)
    (hfile : log.logfile = none) : ¬ OpensFile log := by
  intro h
  have hfine := h fine
  rw [logOpenSlot_absent fine hlive hname hfile] at hfine
  exact hfine rfl hfile

theorem writeEntry_reached (o : Outcome) {log : LogT} (R : Reached log) (pre line : Bytes) :
    ∃ events log', writeEntry o pre line log = some (events, log') ∧ Reached log' := by
  obtain ⟨ok, events, file, size, hopen, _, hno, hyes⟩ := logOpenSlot_spec o log
  cases ok with
  | false =>
    refine ⟨events, { log with logfile := file, size := size }, by rw [writeEntry, hopen], ?_, R.keep,
      R.entries⟩
    intro hlive
    exact Or.inl (hno rfl hlive).1
  | true =>
    obtain ⟨hlive, hfile⟩ := hyes rfl
    obtain ⟨f, rfl⟩ := Option.ne_none_iff_exists'.mp (hfile (R.reach hlive))
    have R' : Reached { log with logfile := some f, size := size } :=
      ⟨fun _ => Or.inr (Option.some_ne_none f), R.keep, R.entries⟩
    have e := createLogEntry_unkept o { log with logfile := some f, size := size } pre line rfl R.keep
    refine ⟨events ++ [.fprintf f (pre ++ line ++ [lf])], if o.fprintf > 0 then
      { log with logfile := some f, size := size + o.fprintf }
      else { log with logfile := some f, size := size }, ?_, ?_⟩
    · rw [writeEntry, hopen]
      simp only [e, Option.bind_eq_bind, Option.bind_some]
    · split
      · exact ⟨R'.reach, R'.keep, R'.entries⟩
      · exact R'

/-- A call on one slot goes through, and keeps the invariant unless it takes the name away
from a closed file. -/
theorem slotStep_reached (id : Int) (call : FileCall) {log : LogT} (R : Reached log) :
    ∃ reply log', slotStep id call.toSlot log = some (reply, log') ∧
      ((call = .setFilename none → log.inUse = true → log.logfile ≠ none) → Reached log') := by
  cases call with
  | setTrigger trigger =>
    refine ⟨{}, logSetTrigger trigger log, rfl, fun _ => ?_⟩
    rw [logSetTrigger]
    split
    · exact ⟨R.reach, R.keep, R.entries⟩
    · exact R
  | setFilename filename =>
    refine ⟨_, (logSetFilename id filename log).2, rfl, fun hopen => ?_⟩
    unfold logSetFilename
    split
    · exact R
    · refine ⟨fun hlive => ?_, R.keep, R.entries⟩
      cases filename with
      | none => exact Or.inr (hopen rfl hlive)
      | some filename => exact Or.inl (Option.some_ne_none _)
  | reopen =>
    refine ⟨_, (logReopen log).2, rfl, fun _ => ?_⟩
    unfold logReopen
    split
    · next name f hname hfile =>
      refine ⟨fun _ => Or.inl ?_, R.keep, R.entries⟩
      show log.filename ≠ none
      rw [hname]
      exact Option.some_ne_none name
    · exact R
  | close =>
    show ∃ reply log', logClose log = some (reply, log') ∧ _
    cases hlive : log.inUse with
    | false => exact ⟨{}, log, by rw [logClose, if_pos hlive], fun _ => R⟩
    | true =>
      obtain ⟨reply, hclose⟩ := logClose_live hlive
      refine ⟨reply, { log with inUse := false, level := 2, logfile := none }, ?_, fun _ => ?_⟩
      · rw [hclose]
        exact congrArg (Option.map _) (trimTo_nothing (by exact R.entries) 0 _)
      · exact ⟨fun hlive => absurd hlive Bool.noConfusion, R.keep, R.entries⟩
  | write o priority date cat func line =>
    show ∃ reply log', logWrite o priority date cat func line log = some (reply, log') ∧ _
    rw [logWrite]
    split
    · exact ⟨{}, log, rfl, fun _ => R⟩
    · split
      · exact ⟨{}, log, rfl, fun _ => R⟩
      · obtain ⟨events, log', e, R'⟩ := writeEntry_reached o R (linePrefix date priority cat func) line.bytes
        rw [e]
        exact ⟨_, log', rfl, fun _ => R'⟩
  | writeDirect o line =>
    obtain ⟨events, log', e, R'⟩ := writeEntry_reached o R [] line.bytes
    show ∃ reply log', logWriteDirect o line log = some (reply, log') ∧ _
    rw [logWriteDirect, e]
    exact ⟨_, log', rfl, fun _ => R'⟩

/-- A call goes through and keeps the invariant of all slots. -/
theorem filesStep_keeps :
    Keeps filesStep (fun (h : Unit) _ _ => h) (fun _ loglist => ∀ i, Reached (loglist i)) NamesOpenFile := by
  intro _ call loglist hok R
  cases call with
  | openFile file =>
    refine ⟨_, _, rfl, ?_⟩
    show ∀ i, Reached ((logOpenFile file loglist).2.1 i)
    rcases logOpenFile_cases file loglist with h | h
    · obtain ⟨f, i, _, _, h⟩ := h
      rw [h]
      apply update_each R
      exact ⟨fun _ => Or.inr (Option.some_ne_none f), (R i).keep, (R i).entries⟩
    · rw [h]
      exact R
  | «open» filename o =>
    refine ⟨_, _, rfl, ?_⟩
    show ∀ i, Reached ((logOpen filename o loglist).2.1 i)
    rcases logOpen_cases filename o loglist with h | h
    · obtain ⟨name, f, i, _, _, _, h⟩ := h
      rw [h]
      apply update_each R
      exact ⟨fun _ => Or.inr (Option.some_ne_none f), (R i).keep, rfl⟩
    · rw [h]
      exact R
  | on id call =>
    rcases slot_or_not id with hid | hid
    · obtain ⟨i, rfl⟩ := hid
      obtain ⟨reply, log', hstep, hR⟩ := slotStep_reached i.val call (R i)
      refine ⟨reply, Function.update loglist i log', ?_, ?_⟩
      · show logStep (.on i.val call.toSlot) loglist = _
        rw [logStep_on, hstep]
        rfl
      · apply update_each R
        apply hR
        intro hcall hlive
        rw [hcall] at hok
        exact hok i rfl hlive
    · exact ⟨badId call.toSlot, loglist, logStep_bad hid _ _, R⟩

/-- Taking the name away from a closed file leaves the slot without either. -/
theorem setFilename_absent {id : Int} {loglist loglist' : Loglist} {reply : Reply} {i : Fin logMaxlogs}
    (hid : id = i.val) (hlive : (loglist i).inUse = true) (hfile : (loglist i).logfile = none)
    (h : filesStep (.on id (.setFilename none)) loglist = some (reply, loglist')) :
    ¬ OpensFile (loglist' i) := by
  obtain rfl := hid
  have hset : slotStep i.val (.setFilename none) (loglist i) =
      some ({ ret := i.val }, { loglist i with filename := none }) := by
    show some (logSetFilename i.val none (loglist i)) = _
    have hneg : ¬ (Option.map cString none = some [] ∨ (loglist i).inUse = false) := by
      rw [hlive]
      simp
    rw [logSetFilename, if_neg hneg]
    rfl
  have hstep : filesStep (.on i.val (.setFilename none)) loglist =
      some ({ ret := i.val }, Function.update loglist i { loglist i with filename := none }) := by
    show logStep (.on i.val (.setFilename none)) loglist = _
    rw [logStep_on, hset]
    rfl
  rw [hstep] at h
  cases h
  rw [Function.update_self]
  exact not_opensFile hlive rfl hfile

/-! Runs. -/

/-- In a run of the calls that have to do with files, every call goes through and every
`_log_open` that succeeds has a file, exactly when no name is taken away from a slot whose
file is closed. -/
theorem no_absent_file (calls : List FilesCall) :
    (∀ done, done <+: calls → ∃ replies loglist,
      runCalls filesStep done loglistInitialize = some (replies, loglist) ∧ ∀ i, OpensFile (loglist i)) ↔
    Meets filesStep NamesOpenFile calls loglistInitialize := by
  apply filesStep_keeps.always_iff (P := fun _ loglist => ∀ i, OpensFile (loglist i)) (h := ())
  case hP =>
    intro _ loglist R i
    exact (R i).opens
  case hbad =>
    intro _ call loglist reply loglist' R hnot hstep hopens
    match call, hnot with
    | .on id (.setFilename none), hnot =>
      obtain ⟨i, hid, hlive, hfile⟩ : ∃ i : Fin logMaxlogs, id = i.val ∧ (loglist i).inUse = true ∧
          (loglist i).logfile = none := by simpa [NamesOpenFile] using hnot
      exact setFilename_absent hid hlive hfile hstep (hopens i)
    | .openFile _, hnot => exact hnot trivial
    | .open _ _, hnot => exact hnot trivial
    | .on _ (.setFilename (some _)), hnot => exact hnot trivial
    | .on _ (.setTrigger _), hnot => exact hnot trivial
    | .on _ .reopen, hnot => exact hnot trivial
    | .on _ .close, hnot => exact hnot trivial
    | .on _ (.write ..), hnot => exact hnot trivial
    | .on _ (.writeDirect ..), hnot => exact hnot trivial
  case hinv =>
    intro i
    exact ⟨fun hlive => absurd hlive Bool.noConfusion, rfl, rfl⟩

/-- A log is opened by name, closed to be reopened, and loses its name; then a line is
written. -/
theorem absent_file_written :
    ¬ ∀ done, done <+: [FilesCall.open (some [97]) fine, .on 0 .reopen, .on 0 (.setFilename none),
        .on 0 (.writeDirect fine lineA)] → ∃ replies loglist,
      runCalls filesStep done loglistInitialize = some (replies, loglist) ∧ ∀ i, OpensFile (loglist i) := by
  intro hall
  obtain ⟨replies, loglist, hrun, _⟩ := hall _ (List.prefix_refl _)
  have hfault : runCalls filesStep [FilesCall.open (some [97]) fine, .on 0 .reopen,
      .on 0 (.setFilename none), .on 0 (.writeDirect fine lineA)] loglistInitialize = none := rfl
  rw [hfault] at hrun
  cases hrun

end IcecastCommon.Log
