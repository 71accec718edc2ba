import IcecastCommon.Library.Handles
import IcecastCommon.Log.Retained

/- The files that `log.c` opens or is given, over all logs. A file is closed once and never touched
   afterwards, and no two logs share one. What is open is what the logs hold, and besides what
   `log_open` opened when there was no slot left: nothing closes that. -/
namespace IcecastCommon.Log
open Library
open Encoding (Bytes nul lf cString)

/-! What a call does with files. -/

/-- An event, where `fopen` answers as given. -/
def eventDeeds (fopen : Option File) : Event → List (Deed File)
  | .fopen _ => fopen.toList.map .acquire
  | .fclose f => [.release f]
  | .rename _ _ => []
  | .fprintf f _ => [.use f]
  | .fflush f => f.toList.map .use

/-- What `fopen` answers to a call on a slot. -/
def slotFopen : SlotCall → Option File
  | .write o _ _ _ _ _ => o.fopen
  | .writeDirect o _ => o.fopen
  | _ => none

/-- A call with its answer. A file that is passed in changes hands when it gets a slot. -/
def callDeeds (call : LogCall) (reply : Reply) : List (Deed File) :=
  match call with
  | .openFile file => if reply.ret < 0 then [] else file.toList.map .acquire
  | .open _ o => reply.events.flatMap (eventDeeds o.fopen)
  | .on _ call => reply.events.flatMap (eventDeeds (slotFopen call))

/-- The slots, and the open files that are known to `log.c`. -/
structure Streams where
  loglist : Loglist
  held : List File

/-- One call; to touch a file that is not open is a fault. -/
def streamsStep (call : LogCall) (s : Streams) : Option (Reply × Streams) := do
  let (reply, loglist) ← logStep call s.loglist
  let held ← deeds s.held (callDeeds call reply)
  some (reply, ⟨loglist, held⟩)

/-- No open file is opened again, by `fopen` or by the caller who passes it in. -/
def Answered (call : LogCall) (s : Streams) : Prop :=
  match logStep call s.loglist with
  | some (reply, _) => Given s.held (callDeeds call reply)
  | none => True

instance (call : LogCall) (s : Streams) : Decidable (Answered call s) := by
  unfold Answered
  split <;> infer_instance

/-- The files that `log_open` has opened and then found no slot for. -/
def stranded (fs : List File) (call : LogCall) (reply : Reply) : List File :=
  match call with
  | .open _ o => if reply.ret = logEnomorelogs then o.fopen.toList ++ fs else fs
  | _ => fs

/-- The files in the slots. -/
def slotFiles (loglist : Loglist) : List File :=
  (List.finRange logMaxlogs).flatMap fun i => (loglist i).logfile.toList

/-! One slot. -/

/-- A slot out of use holds no file. -/
def Unheld (log : LogT) : Prop := log.inUse = false → log.logfile = none

/-- Name, file and use of a slot are as before. -/
structure SameFile (log log' : LogT) : Prop where
  logfile : log'.logfile = log.logfile
  filename : log'.filename = log.filename
  inUse : log'.inUse = log.inUse

theorem Unheld.congr {log log' : LogT} (U : Unheld log) (S : SameFile log log') : Unheld log' := by
  intro h
  rw [S.logfile]
  exact U (S.inUse.symm.trans h)

/-- What can be done with the file of a slot that has this name: the events, and the file before and
after them. -/
inductive Acts (fopen : Option File) (filename : Option Bytes) : Option File → List Event → Option File → Prop
  | quiet (file : Option File) : Acts fopen filename file [] file
  | fopen {name : Bytes} (h : filename = some name) : Acts fopen filename none [.fopen name] fopen
  | fclose (f : File) : Acts fopen filename (some f) [.fclose f] none
  | rename {name : Bytes} (h : filename = some name) (o : Outcome) (log : LogT) :
      Acts fopen filename none [.rename name (archiveName o log name)] none
  | fprintf (f : File) (text : Bytes) : Acts fopen filename (some f) [.fprintf f text] (some f)
  | fflush (file : Option File) : Acts fopen filename file [.fflush file] file
  | append {file mid file' : Option File} {events events' : List Event} (h : Acts fopen filename file events mid)
      (h' : Acts fopen filename mid events' file') : Acts fopen filename file (events ++ events') file'

/-- The file is owned while it is open. -/
theorem Acts.owns {fopen : Option File} {filename : Option Bytes} {file file' : Option File} {events : List Event}
    (A : Acts fopen filename file events file') :
    Owns file.toList (events.flatMap (eventDeeds fopen)) file'.toList := by
  induction A with
  | quiet file => exact Owns.nil _
  | fopen h =>
    cases fopen with
    | none => exact Owns.nil []
    | some f => exact Owns.acquire [] f
  | fclose f => exact Owns.release [] f
  | rename h o log => exact Owns.nil []
  | fprintf f text => exact Owns.use List.mem_cons_self
  | fflush file =>
    cases file with
    | none => exact Owns.nil []
    | some f => exact Owns.use List.mem_cons_self
  | append h h' ih ih' =>
    rw [List.flatMap_append]
    exact ih.append ih'

/-- The file of a slot, before and after some events. -/
def SlotActs (fopen : Option File) (events : List Event) (log log' : LogT) : Prop :=
  Acts fopen log.filename log.logfile events log'.logfile

theorem SlotActs.quiet (fopen : Option File) {log log' : LogT} (h : log'.logfile = log.logfile) :
    SlotActs fopen [] log log' := by
  unfold SlotActs
  rw [h]
  exact .quiet _

theorem SlotActs.append {fopen : Option File} {events events' : List Event} {log log' log'' : LogT}
    (h : SlotActs fopen events log log') (hname : log'.filename = log.filename)
    (h' : SlotActs fopen events' log' log'') : SlotActs fopen (events ++ events') log log'' := by
  unfold SlotActs at h'
  rw [hname] at h'
  exact Acts.append h h'

/-- The first file of a slot without one. -/
theorem SlotActs.fopen {fopen : Option File} {name : Bytes} {log log' : LogT} (hname : log.filename = some name)
    (h : log.logfile = none) (h' : log'.logfile = fopen) : SlotActs fopen [.fopen name] log log' := by
  unfold SlotActs
  rw [h, h']
  exact .fopen hname

theorem SlotActs.fclose (fopen : Option File) {f : File} {log log' : LogT} (h : log.logfile = some f)
    (h' : log'.logfile = none) : SlotActs fopen [.fclose f] log log' := by
  unfold SlotActs
  rw [h, h']
  exact .fclose f

theorem SlotActs.fprintf (fopen : Option File) {f : File} {log log' : LogT} (text : Bytes)
    (h : log.logfile = some f) (h' : log'.logfile = log.logfile) : SlotActs fopen [.fprintf f text] log log' := by
  unfold SlotActs
  rw [h', h]
  exact .fprintf f text

theorem dropFirst_file {log log' : LogT} (h : dropFirst log = some log') : SameFile log log' := by
  obtain ⟨r, _, rfl⟩ := Option.map_eq_some_iff.mp h
  exact ⟨rfl, rfl, rfl⟩

theorem trimTo_file {count : BitVec 32} {fuel : Nat} {log log' : LogT} (h : trimTo count fuel log = some log') :
    SameFile log log' := by
  induction fuel generalizing log with
  | zero =>
    rw [trimTo] at h
    split at h
    · cases h
    · cases h
      exact ⟨rfl, rfl, rfl⟩
  | succ fuel ih =>
    rw [trimTo] at h
    split at h
    · obtain ⟨d, hd, h⟩ := Option.bind_eq_some_iff.mp h
      have S := dropFirst_file hd
      have S' := ih h
      exact ⟨S'.logfile.trans S.logfile, S'.filename.trans S.filename, S'.inUse.trans S.inUse⟩
    · cases h
      exact ⟨rfl, rfl, rfl⟩

/-- `create_log_entry` prints to the file of the slot. -/
theorem createLogEntry_acts {o : Outcome} {pre line : Bytes} {log log' : LogT} {n : Int} {events : List Event}
    (h : createLogEntry o log pre line = some (n, events, log')) :
    SlotActs o.fopen events log log' ∧ SameFile log log' := by
  unfold createLogEntry at h
  obtain ⟨f, hf, h⟩ := Option.bind_eq_some_iff.mp h
  by_cases hkeep : log.keepEntries = 0
  · rw [if_pos hkeep] at h
    cases h
    exact ⟨.fprintf _ _ hf rfl, rfl, rfl, rfl⟩
  · rw [if_neg hkeep] at h
    obtain ⟨q, _, h⟩ := Option.bind_eq_some_iff.mp h
    obtain ⟨d, hd, h⟩ := Option.bind_eq_some_iff.mp h
    cases h
    split at hd
    · have S := dropFirst_file hd
      exact ⟨.fprintf _ _ hf S.logfile, S.logfile, S.filename, S.inUse⟩
    · cases hd
      exact ⟨.fprintf _ _ hf rfl, rfl, rfl, rfl⟩

/-- `_log_open` closes the file before it opens the next. -/
theorem logOpenSlot_acts (o : Outcome) (log : LogT) :
    SlotActs o.fopen (logOpenSlot o log).2.1 log (logOpenSlot o log).2.2 ∧
      (logOpenSlot o log).2.2.filename = log.filename ∧ (logOpenSlot o log).2.2.inUse = log.inUse ∧
      (log.inUse = false → (logOpenSlot o log).2.2.logfile = log.logfile) := by
  unfold logOpenSlot
  split
  · exact ⟨.quiet _ rfl, rfl, rfl, fun _ => rfl⟩
  · next hlive =>
    split
    · cases hname : log.filename with
      | none => exact ⟨.quiet _ rfl, rfl, rfl, fun h => absurd h hlive⟩
      | some name =>
        cases hfile : log.logfile with
        | none =>
          cases hopen : o.fopen with
          | none => exact ⟨.fopen hname hfile hfile, hname, rfl, fun _ => hfile⟩
          | some f => exact ⟨.fopen hname hfile rfl, hname, rfl, fun h => absurd h hlive⟩
        | some g =>
          -- it is closed and renamed, and the name is opened anew
          have hclose : SlotActs o.fopen [.fclose g] log { log with logfile := none } := .fclose _ hfile rfl
          have hrename : SlotActs o.fopen [.rename name (archiveName o log name)] { log with logfile := none }
              { log with logfile := none } := .rename hname o log
          have hboth := hclose.append rfl hrename
          cases hopen : o.fopen with
          | none =>
            rw [hopen] at hboth
            exact ⟨hboth.append rfl (.fopen hname rfl rfl), rfl, rfl, fun h => absurd h hlive⟩
          | some f =>
            rw [hopen] at hboth
            exact ⟨hboth.append rfl (.fopen hname rfl rfl), rfl, rfl, fun h => absurd h hlive⟩
    · exact ⟨.quiet _ rfl, rfl, rfl, fun _ => rfl⟩

theorem writeEntry_acts {o : Outcome} {pre line : Bytes} {log log' : LogT} {events : List Event} (U : Unheld log)
    (h : writeEntry o pre line log = some (events, log')) :
    SlotActs o.fopen events log log' ∧ Unheld log' ∧ log'.filename = log.filename := by
  obtain ⟨hopen, hname, hlive, hdead⟩ := logOpenSlot_acts o log
  unfold writeEntry at h
  have U' : Unheld (logOpenSlot o log).2.2 := by
    intro hidle
    rw [hlive] at hidle
    rw [hdead hidle]
    exact U hidle
  generalize logOpenSlot o log = r at h hopen hname hlive U'
  obtain ⟨ok, opened, mid⟩ := r
  cases ok with
  | false =>
    cases h
    exact ⟨hopen, U', hname⟩
  | true =>
    obtain ⟨⟨n, printed, last⟩, hcreate, h⟩ := Option.bind_eq_some_iff.mp h
    obtain ⟨hprint, S⟩ := createLogEntry_acts hcreate
    have hboth : SlotActs o.fopen (opened ++ printed) log last := hopen.append hname hprint
    have U'' : Unheld last := U'.congr S
    cases h
    split
    · exact ⟨hboth, U'', S.filename.trans hname⟩
    · exact ⟨hboth, U'', S.filename.trans hname⟩

/-- Whether a call may give the slot another name. -/
def SlotCall.isSetFilename : SlotCall → Bool
  | .setFilename _ => true
  | _ => false

/-- What a call that goes through does with the slot's file, and that it leaves the slot's name. -/
theorem slotStep_acts {id : Int} {call : SlotCall} {log log' : LogT} {reply : Reply} (U : Unheld log)
    (h : slotStep id call log = some (reply, log')) :
    SlotActs (slotFopen call) reply.events log log' ∧ Unheld log' ∧
      (call.isSetFilename = false → log'.filename = log.filename) := by
  cases call with
  | setTrigger trigger =>
    cases h
    unfold logSetTrigger
    split
    · exact ⟨.quiet _ rfl, U, fun _ => rfl⟩
    · exact ⟨.quiet _ rfl, U, fun _ => rfl⟩
  | setFilename filename =>
    replace h : some (logSetFilename id filename log) = some (reply, log') := h
    unfold logSetFilename at h
    split at h
    · cases h
      exact ⟨.quiet _ rfl, U, fun _ => rfl⟩
    · cases h
      exact ⟨.quiet _ rfl, U, fun hcall => Bool.noConfusion hcall⟩
  | setArchiveTimestamp value =>
    cases h
    exact ⟨.quiet _ rfl, U, fun _ => rfl⟩
  | setLinesKept count =>
    obtain ⟨d, hd, hlog⟩ := Option.map_eq_some_iff.mp h
    cases hlog
    unfold logSetLinesKept at hd
    split at hd
    · cases hd
      exact ⟨.quiet _ rfl, U, fun _ => rfl⟩
    · have S := trimTo_file hd
      exact ⟨.quiet _ S.logfile, U.congr ⟨S.logfile, S.filename, S.inUse⟩, fun _ => S.filename⟩
  | setLevel level =>
    cases h
    unfold logSetLevel
    split
    · exact ⟨.quiet _ rfl, U, fun _ => rfl⟩
    · exact ⟨.quiet _ rfl, U, fun _ => rfl⟩
  | flush =>
    replace h : some (logFlush log) = some (reply, log') := h
    unfold logFlush at h
    split at h
    · cases h
      exact ⟨.quiet _ rfl, U, fun _ => rfl⟩
    · cases hfile : log.logfile with
      | none =>
        rw [hfile] at h
        cases h
        exact ⟨.quiet _ rfl, U, fun _ => rfl⟩
      | some f =>
        rw [hfile] at h
        cases h
        refine ⟨?_, U, fun _ => rfl⟩
        rw [← hfile]
        exact .fflush _
  | reopen =>
    replace h : some (logReopen log) = some (reply, log') := h
    unfold logReopen at h
    split at h
    · next f hname hfile =>
      cases h
      exact ⟨.fclose none hfile rfl, fun _ => rfl, fun _ => rfl⟩
    · cases h
      exact ⟨.quiet _ rfl, U, fun _ => rfl⟩
  | close =>
    replace h : logClose log = some (reply, log') := h
    unfold logClose at h
    split at h
    · cases h
      exact ⟨.quiet _ rfl, U, fun _ => rfl⟩
    · obtain ⟨d, hd, h⟩ := Option.map_eq_some_iff.mp h
      cases h
      have S := trimTo_file hd
      refine ⟨?_, fun _ => S.logfile, fun _ => S.filename⟩
      cases hfile : log.logfile with
      | none => exact .quiet none (S.logfile.trans hfile.symm)
      | some f => exact .fclose none hfile S.logfile
  | write o priority date cat func line =>
    replace h : logWrite o priority date cat func line log = some (reply, log') := h
    unfold logWrite at h
    split at h
    · cases h
      exact ⟨.quiet _ rfl, U, fun _ => rfl⟩
    · split at h
      · cases h
        exact ⟨.quiet _ rfl, U, fun _ => rfl⟩
      · obtain ⟨r, hr, h⟩ := Option.map_eq_some_iff.mp h
        cases h
        obtain ⟨hwrite, U', hname⟩ := writeEntry_acts U hr
        exact ⟨hwrite, U', fun _ => hname⟩
  | writeDirect o line =>
    obtain ⟨⟨events, d⟩, hr, h⟩ := Option.map_eq_some_iff.mp h
    cases h
    obtain ⟨hwrite, U', hname⟩ := writeEntry_acts U hr
    exact ⟨hwrite.append hname (.fflush _), U', fun _ => hname⟩
  | contents =>
    replace h : logContents log = some (reply, log') := h
    dsimp only [logContents] at h
    split at h
    · cases h
    · obtain ⟨entries, _, h⟩ := Option.bind_eq_some_iff.mp h
      obtain ⟨text, _, h⟩ := Option.bind_eq_some_iff.mp h
      cases h
      exact ⟨.quiet _ rfl, U, fun _ => rfl⟩
  | contentsArray mem =>
    replace h : logContentsArray mem log = some (reply, log') := h
    unfold logContentsArray at h
    split at h
    · cases h
      exact ⟨.quiet _ rfl, U, fun _ => rfl⟩
    · obtain ⟨entries, _, h⟩ := Option.bind_eq_some_iff.mp h
      cases h
      exact ⟨.quiet _ rfl, U, fun _ => rfl⟩

/-! All slots. -/

/-- One slot's file among the others. -/
theorem slotFiles_update (loglist : Loglist) (i : Fin logMaxlogs) :
    ∃ rest, ∀ log, (slotFiles (Function.update loglist i log)).Perm (log.logfile.toList ++ rest) := by
  obtain ⟨before, behind, hall⟩ := List.append_of_mem (List.mem_finRange i)
  have honce : (before ++ i :: behind).Nodup := hall ▸ List.nodup_finRange logMaxlogs
  have hother : ∀ (log : LogT) (js : List (Fin logMaxlogs)), i ∉ js →
      (js.flatMap fun j => (Function.update loglist i log j).logfile.toList) =
        js.flatMap fun j => (loglist j).logfile.toList := by
    intro log js hi
    refine List.flatMap_congr fun j hj => ?_
    have hne : j ≠ i := fun h => hi (h ▸ hj)
    rw [Function.update_of_ne hne]
  have hbefore : i ∉ before := fun h => (List.nodup_append.mp honce).2.2 i h i List.mem_cons_self rfl
  have hbehind : i ∉ behind := (List.nodup_cons.mp (List.nodup_append.mp honce).2.1).1
  refine ⟨(before.flatMap fun j => (loglist j).logfile.toList) ++
    behind.flatMap fun j => (loglist j).logfile.toList, fun log => ?_⟩
  rw [slotFiles, hall, List.flatMap_append, List.flatMap_cons, hother log before hbefore,
    hother log behind hbehind, Function.update_self]
  exact List.perm_append_comm_assoc _ _ _

/-- The open files are those in the slots and those that were stranded, and slots out of use hold
none. -/
structure Held (fs : List File) (s : Streams) : Prop where
  perm : s.held.Perm (slotFiles s.loglist ++ fs)
  once : s.held.Nodup
  unheld : ∀ i, Unheld (s.loglist i)

/-- What a slot makes of its file, with the other slots. -/
theorem slotFiles_owns {ds : List (Deed File)} {loglist : Loglist} {i : Fin logMaxlogs} {log : LogT}
    (h : Owns (loglist i).logfile.toList ds log.logfile.toList) :
    Owns (slotFiles loglist) ds (slotFiles (Function.update loglist i log)) := by
  obtain ⟨rest, hrest⟩ := slotFiles_update loglist i
  have hsame := hrest (loglist i)
  rw [Function.update_eq_self] at hsame
  exact (Owns.frame h rest).perm hsame (hrest log).symm

/-- A file is put into a slot out of use. -/
theorem owns_taken {loglist : Loglist} {i : Fin logMaxlogs} (hunheld : ∀ i, Unheld (loglist i))
    (hid : getLogId loglist = some i) {f : File} {log : LogT} (hfile : log.logfile = some f) :
    Owns (slotFiles loglist) [.acquire f] (slotFiles (Function.update loglist i log)) := by
  have hfound := List.find?_some hid
  have hfree : (loglist i).inUse = false := of_decide_eq_true hfound
  have hopen : Owns (loglist i).logfile.toList [.acquire f] log.logfile.toList := by
    rw [hunheld i hfree, hfile]
    exact Owns.acquire [] f
  exact slotFiles_owns hopen

/-- Every call that goes through owns what the slots hold. -/
theorem logStep_owns {call : LogCall} {loglist loglist' : Loglist} {reply : Reply}
    (hunheld : ∀ i, Unheld (loglist i)) (h : logStep call loglist = some (reply, loglist')) :
    Owns (slotFiles loglist) (callDeeds call reply) (slotFiles loglist' ++ stranded [] call reply) ∧
      ∀ i, Unheld (loglist' i) := by
  have hnone : Owns (slotFiles loglist) [] (slotFiles loglist ++ []) := by
    rw [List.append_nil]
    exact Owns.nil _
  cases call with
  | openFile file =>
    cases file with
    | none =>
      cases h
      exact ⟨hnone, hunheld⟩
    | some f =>
      cases hid : getLogId loglist with
      | none =>
        simp only [logStep, logOpenFile, hid] at h
        cases h
        exact ⟨hnone, hunheld⟩
      | some i =>
        simp only [logStep, logOpenFile, hid] at h
        cases h
        have hret : ¬ ((i.val : Int) < 0) := by omega
        refine ⟨?_, update_each hunheld i fun hdead => Bool.noConfusion hdead⟩
        show Owns _ (if (i.val : Int) < 0 then [] else [.acquire f]) (_ ++ [])
        rw [if_neg hret, List.append_nil]
        exact owns_taken hunheld hid rfl
  | «open» filename o =>
    cases hname : filename.map cString with
    | none =>
      simp only [logStep, logOpen, hname] at h
      cases h
      exact ⟨hnone, hunheld⟩
    | some name =>
      cases name with
      | nil =>
        simp only [logStep, logOpen, hname] at h
        cases h
        exact ⟨hnone, hunheld⟩
      | cons c name =>
        cases hopen : o.fopen with
        | none =>
          simp only [logStep, logOpen, hname, hopen, logOpenFile] at h
          cases h
          rw [callDeeds, hopen]
          exact ⟨hnone, hunheld⟩
        | some f =>
          cases hid : getLogId loglist with
          | none =>
            simp only [logStep, logOpen, hname, hopen, logOpenFile, hid] at h
            cases h
            refine ⟨?_, hunheld⟩
            show Owns _ ([Event.fopen (c :: name)].flatMap (eventDeeds o.fopen)) (_ ++ (o.fopen.toList ++ []))
            rw [hopen]
            exact (Owns.acquire _ f).perm (List.Perm.refl _) (List.perm_append_singleton f _).symm
          | some i =>
            simp only [logStep, logOpen, hname, hopen, logOpenFile, hid, Function.update_self,
              Function.update_idem] at h
            cases h
            have hret : ¬ ((i.val : Int) = logEnomorelogs) := by
              unfold logEnomorelogs
              omega
            refine ⟨?_, update_each hunheld i fun hdead => Bool.noConfusion hdead⟩
            show Owns _ ([Event.fopen (c :: name)].flatMap (eventDeeds o.fopen))
              (_ ++ (if (i.val : Int) = logEnomorelogs then o.fopen.toList ++ [] else []))
            rw [if_neg hret, hopen, List.append_nil]
            exact owns_taken hunheld hid rfl
  | on id call =>
    rcases slot_or_not id with hid | hid
    · obtain ⟨i, rfl⟩ := hid
      rw [logStep_on] at h
      obtain ⟨⟨reply', log⟩, hstep, h⟩ := Option.map_eq_some_iff.mp h
      cases h
      obtain ⟨hacts, U, _⟩ := slotStep_acts (hunheld i) hstep
      refine ⟨?_, update_each hunheld i U⟩
      show Owns _ _ (_ ++ [])
      rw [List.append_nil]
      exact slotFiles_owns (Acts.owns hacts)
    · rw [logStep_bad hid] at h
      cases h
      refine ⟨?_, hunheld⟩
      cases call <;> exact hnone

theorem stranded_eq (fs : List File) (call : LogCall) (reply : Reply) :
    stranded fs call reply = stranded [] call reply ++ fs := by
  cases call with
  | openFile file => rfl
  | «open» filename o =>
    by_cases hret : reply.ret = logEnomorelogs
    · simp only [stranded, if_pos hret, List.append_nil]
    · simp only [stranded, if_neg hret, List.nil_append]
  | on id call => rfl

/-- A call that goes through touches open files only. -/
theorem streamsStep_held {fs : List File} {call : LogCall} {s : Streams} {reply : Reply} {loglist : Loglist}
    (H : Held fs s) (hans : Answered call s) (h : logStep call s.loglist = some (reply, loglist)) :
    ∃ held, streamsStep call s = some (reply, ⟨loglist, held⟩) ∧ Held (stranded fs call reply) ⟨loglist, held⟩ := by
  obtain ⟨howns, hunheld⟩ := logStep_owns H.unheld h
  rw [Answered, h] at hans
  obtain ⟨held, hdeeds, hperm, honce⟩ := (howns.frame fs).all H.perm H.once hans
  refine ⟨held, ?_, ?_, honce, hunheld⟩
  · rw [streamsStep, h]
    show (deeds s.held (callDeeds call reply)).bind _ = _
    rw [hdeeds]
    rfl
  · rw [stranded_eq, ← List.append_assoc]
    exact hperm

/-! Runs. -/

/-- No log, and no file. -/
def noStreams : Streams := ⟨loglistInitialize, []⟩

theorem noStreams_held : Held [] noStreams := by
  refine ⟨?_, List.nodup_nil, fun i _ => rfl⟩
  have hnone : slotFiles loglistInitialize = [] := List.flatMap_eq_nil_iff.mpr fun i _ => rfl
  show List.Perm [] (slotFiles loglistInitialize ++ [])
  rw [hnone]
  exact List.Perm.refl []

theorem run_held {calls : List LogCall} {fs : List File} {s : Streams} {replies : List Reply} {loglist : Loglist}
    (H : Held fs s) (hans : Meets streamsStep Answered calls s)
    (h : runCalls logStep calls s.loglist = some (replies, loglist)) :
    ∃ held, runCalls streamsStep calls s = some (replies, ⟨loglist, held⟩) ∧
      Held (history stranded fs calls replies) ⟨loglist, held⟩ := by
  induction calls generalizing fs s replies with
  | nil =>
    cases h
    exact ⟨s.held, rfl, H⟩
  | cons call calls ih =>
    obtain ⟨reply, mid, replies, hstep, hrest, rfl⟩ := runCalls_cons_inv h
    obtain ⟨held, hs, H'⟩ := streamsStep_held H hans.1 hstep
    obtain ⟨held', hr, H''⟩ := ih H' (hans.2 _ _ hs) hrest
    refine ⟨held', ?_, H''⟩
    rw [runCalls_cons hs, hr]
    rfl

/-- Whatever calls are made on the logs, as long as none of them faults they touch open files only. No file is
in two slots, a slot out of use holds none, and what is open beyond the slots is what `log_open` has opened
when all of them were in use. -/
theorem streams_of_run {calls : List LogCall} {replies : List Reply} {loglist : Loglist}
    (hans : Meets streamsStep Answered calls noStreams)
    (hrun : runCalls logStep calls loglistInitialize = some (replies, loglist)) :
    ∃ held, runCalls streamsStep calls noStreams = some (replies, ⟨loglist, held⟩) ∧ held.Nodup ∧
      held.Perm (slotFiles loglist ++ history stranded [] calls replies) ∧
      ∀ i, (loglist i).inUse = false → (loglist i).logfile = none := by
  obtain ⟨held, hr, H⟩ := run_held noStreams_held hans hrun
  exact ⟨held, hr, H.once, H.perm, H.unheld⟩

/-- A C library that opens the file `f`, which has 2000 bytes. -/
def opensFile (f : File) : Outcome := ⟨some f, some 2000, 2, []⟩

/-- One log too many is opened; the first one is rotated and closed. -/
def crowdedRun : List LogCall :=
  (List.range 26).map (fun n => .open (some [97]) (opensFile n)) ++
    [.on 0 (.setTrigger 1), .on 0 (.writeDirect (opensFile 26) lineA), .on 0 .close]

theorem streams_of_run_crowded : ∃ replies loglist held,
    runCalls streamsStep crowdedRun noStreams = some (replies, ⟨loglist, held⟩) ∧
      held.Perm (slotFiles loglist ++ [25]) := by
  have hans : meetsCheck streamsStep Answered crowdedRun noStreams = true := by decide +kernel
  have hleft : (runCalls logStep crowdedRun loglistInitialize).map
      (fun r => history stranded [] crowdedRun r.1) = some [25] := by decide +kernel
  obtain ⟨⟨replies, loglist⟩, hrun, hleft⟩ := Option.map_eq_some_iff.mp hleft
  obtain ⟨held, hr, _, hperm, _⟩ := streams_of_run (Meets.of_check hans) hrun
  exact ⟨replies, loglist, held, hr, hleft ▸ hperm⟩

end IcecastCommon.Log
