import IcecastCommon.Encoding.State
import IcecastCommon.Library.Queue
import IcecastCommon.Library.Calls

/- The logging framework of `log.c`. A slot holds one log; the lines it retains are a
   linked queue. What `fopen`, `stat`, `fprintf` and the clock answer is an argument of
   the call (`Outcome`), and the calls of the C library that a reader of the log files can
   notice are recorded as events. `malloc` and `strdup`, whose results the code does not
   check, succeed. An access through NULL or into a freed entry is a fault (`none`). The
   field `buffer` is left out, nothing ever sets it. -/
namespace IcecastCommon.Log
open Library
open Encoding (Bytes nul lf cString)

/-- What `snprintf` stores in a buffer of `n` bytes. -/
def snprintf (n : Nat) (text : Bytes) : Bytes := text.take (n - 1) ++ [nul]

/-- `FILE *`, NULL left out. -/
abbrev File := Nat

/-- `log_entry_t` without its link: `line` is the whole buffer. -/
structure LogEntry where
  line : Bytes
  len : BitVec 32
  deriving DecidableEq, Repr

/-- `log_t`; `lines` are the entries with `log_head` and `log_tail`. -/
structure LogT where
  inUse : Bool
  level : BitVec 32
  filename : Option Bytes
  logfile : Option File
  size : Int
  triggerLevel : Int
  archiveTimestamp : Int
  total : BitVec 64
  entries : BitVec 32
  keepEntries : BitVec 32
  lines : Queue LogEntry

/-- A slot after `log_initialize`. -/
def logInitialize : LogT where
  inUse := false
  level := 2
  filename := none
  logfile := none
  size := 0
  triggerLevel := 1000000000
  archiveTimestamp := 0
  total := 0
  entries := 0
  keepEntries := 0
  lines := Queue.empty

/-- What the C library answers during one call: `fopen`, `stat` (`st_size`), `fprintf`, and
`strftime` for an archive name. -/
structure Outcome where
  fopen : Option File
  stat : Option Int
  fprintf : Int
  timestamp : Bytes
  deriving DecidableEq, Repr

/-- What a call does to files. -/
inductive Event where
  | fopen (name : Bytes)
  | fclose (f : File)
  | rename (old new : Bytes)
  | fprintf (f : File) (text : Bytes)
  | fflush (f : Option File)
  deriving DecidableEq, Repr

/-- `.old` -/
def oldSuffix : Bytes := [46, 111, 108, 100]

/-- The name a full log file is renamed to. -/
def archiveName (o : Outcome) (log : LogT) (filename : Bytes) : Bytes :=
  if log.archiveTimestamp ≠ 0 then cString (snprintf 4096 (filename ++ [46] ++ o.timestamp))
  else cString (snprintf 4096 (filename ++ oldSuffix))

/-- `_log_open`. -/
def logOpenSlot (o : Outcome) (log : LogT) : Bool × List Event × LogT :=
  if log.inUse = false then (false, [], log)
  else if log.logfile = none ∨ log.triggerLevel ≠ 0 ∧ log.size > log.triggerLevel then
    match log.filename with
    | some filename =>
      let (events, log) := match log.logfile with
        | some f =>
          ([Event.fclose f, .rename filename (archiveName o log filename)], { log with logfile := none })
        | none => ([], log)
      match o.fopen with
      | none => (false, events ++ [.fopen filename], log)
      | some f =>
        (true, events ++ [.fopen filename],
          { log with logfile := some f, size := o.stat.getD 0 })
    | none => (true, [], { log with size := 0 })
  else (true, [], log)

/-- The first entry is unlinked and freed. -/
def dropFirst (log : LogT) : Option LogT :=
  log.lines.pop.map fun r => { log with lines := r.2, total := log.total - r.1.len.setWidth 64 }

/-- `create_log_entry`; the result is its return value, what it printed and the log. -/
def createLogEntry (o : Outcome) (log : LogT) (pre line : Bytes) : Option (Int × List Event × LogT) := do
  let f ← log.logfile
  let text := pre ++ line ++ [lf]
  if log.keepEntries = 0 then some (o.fprintf, [.fprintf f text], log)
  else
    let len := BitVec.ofNat 32 (pre.length + line.length + 2)
    let entry : LogEntry := { line := snprintf len.toNat text, len := len }
    let log := { log with total := log.total + len.setWidth 64 }
    let events := [Event.fprintf f (cString entry.line)]
    let lines ← log.lines.push entry
    let log := { log with lines := lines }
    let log ←
      (if log.entries ≥ log.keepEntries then dropFirst log
      else some { log with entries := log.entries + 1 })
    some (len.toInt, events, log)

/-- `while (entries > count)`, the first entry is dropped. -/
def trimTo (count : BitVec 32) : Nat → LogT → Option LogT
  | 0, log => if log.entries > count then none else some log
  | fuel + 1, log =>
    if log.entries > count then do
      let log ← dropFirst log
      trimTo count fuel { log with entries := log.entries - 1 }
    else some log

/-- What a call gives back: a number, the lines of `log_contents_array` (`none` for NULL),
the text and length of `log_contents`, and what it did to files. -/
structure Reply where
  ret : Int := 0
  lines : Option (List Bytes) := none
  contents : Option (Bytes × BitVec 32) := none
  events : List Event := []
  deriving DecidableEq, Repr

/-- `LOG_EINSANE` -/
def logEinsane : Int := -1

/-- `LOG_ENOMORELOGS` -/
def logEnomorelogs : Int := -2

/-! The calls on one slot. -/

/-- `log_set_trigger`; the product is an `unsigned`. -/
def logSetTrigger (trigger : BitVec 32) (log : LogT) : LogT :=
  if log.inUse then { log with triggerLevel := ((trigger * 1024).toNat : Int) } else log

/-- `log_set_filename` -/
def logSetFilename (id : Int) (filename : Option Bytes) (log : LogT) : Reply × LogT :=
  if filename.map cString = some [] ∨ log.inUse = false then ({ ret := logEinsane }, log)
  else ({ ret := id }, { log with filename := filename.map cString })

/-- `log_set_archive_timestamp` -/
def logSetArchiveTimestamp (id value : Int) (log : LogT) : Reply × LogT :=
  ({ ret := id }, { log with archiveTimestamp := value })

/-- `log_set_lines_kept` -/
def logSetLinesKept (count : BitVec 32) (log : LogT) : Option LogT :=
  if log.inUse = false then some log
  else trimTo count log.entries.toNat { log with keepEntries := count }

/-- `log_set_level` -/
def logSetLevel (level : BitVec 32) (log : LogT) : LogT :=
  if log.inUse = false then log else { log with level := level }

/-- `log_flush` -/
def logFlush (log : LogT) : Reply × LogT :=
  if log.inUse = false then ({}, log)
  else match log.logfile with
    | some f => ({ events := [.fflush (some f)] }, log)
    | none => ({}, log)

/-- `log_reopen` -/
def logReopen (log : LogT) : Reply × LogT :=
  match log.filename, log.logfile with
  | some _, some f => ({ events := [.fclose f] }, { log with logfile := none })
  | _, _ => ({}, log)

/-- `log_close`; `filename` stays, as a dangling pointer. -/
def logClose (log : LogT) : Option (Reply × LogT) :=
  if log.inUse = false then some ({}, log)
  else
    let log := { log with inUse := false, level := 2 }
    let events := match log.logfile with
      | some f => [Event.fclose f]
      | none => []
    (trimTo 0 log.entries.toNat { log with logfile := none }).map fun log => ({ events := events }, log)

/-- The part of the two writing functions between the locks. -/
def writeEntry (o : Outcome) (pre line : Bytes) (log : LogT) : Option (List Event × LogT) :=
  match logOpenSlot o log with
  | (false, events, log) => some (events, log)
  | (true, events, log) => do
    let (len, printed, log) ← createLogEntry o log pre line
    some (events ++ printed, if len > 0 then { log with size := log.size + len } else log)

/-- A string shorter than `n` bytes. -/
structure Text (n : Nat) where
  bytes : Bytes
  fits : bytes.length < n
  plain : nul ∉ bytes

/-- `prior` -/
def prior : List Bytes :=
  [[69, 82, 79, 82], [87, 65, 82, 78], [73, 78, 70, 79], [68, 66, 85, 71]]

/-- The text before the message; `date` is what `strftime` made of the time. -/
def linePrefix (date : Text 256) (priority : BitVec 32) (cat func : Bytes) : Bytes :=
  date.bytes ++ cString (snprintf (256 - date.bytes.length)
    ([32] ++ prior.getD (priority.toNat - 1) [] ++ [32] ++ cString cat ++ cString func ++ [32]))

/-- `log_write`; `line` is the formatted message. -/
def logWrite (o : Outcome) (priority : BitVec 32) (date : Text 256) (cat func : Bytes) (line : Text 1024)
    (log : LogT) : Option (Reply × LogT) :=
  if log.level < priority then some ({}, log)
  else if priority = 0 ∨ priority.toNat > prior.length then some ({}, log)
  else (writeEntry o (linePrefix date priority cat func) line.bytes log).map fun r =>
    ({ events := r.1 }, r.2)

/-- `log_write_direct` -/
def logWriteDirect (o : Outcome) (line : Text 1024) (log : LogT) : Option (Reply × LogT) :=
  (writeEntry o [] line.bytes log).map fun r => ({ events := r.1 ++ [.fflush r.2.logfile] }, r.2)

/-- The line of an entry with its newline cut off, as `log_contents_array` copies it. -/
def copyLine (entry : LogEntry) : Bytes :=
  cString (if entry.line[entry.len.toNat - 2]? = some lf then
    entry.line.set (entry.len.toNat - 2) nul else entry.line)

/-- `log_contents_array`; `mem` says whether its `calloc` succeeds. -/
def logContentsArray (mem : Bool) (log : LogT) : Option (Reply × LogT) := do
  if mem = false then some ({}, log)
  else
    let entries ← log.lines.read
    some ({ lines := some (entries.map copyLine) }, log)

/-- `int remain = total + 1` -/
def remainOf (total : BitVec 64) : Int := ((total + 1).setWidth 32).toInt

/-- The loop of `log_contents`: what it appends to the buffer, which has `remain` bytes
left. A text that does not fit takes `remain` to zero or below; at zero nothing is written,
below zero outside of the buffer. -/
def printLines : List LogEntry → Int → Option Bytes
  | [], _ => some []
  | entry :: entries, remain =>
    if remain < 0 then none
    else do
      let text := cString entry.line
      let rest ← printLines entries (remain - text.length)
      some (text.take (remain.toNat - 1) ++ rest)

/-- `log_contents` -/
def logContents (log : LogT) : Option (Reply × LogT) := do
  let remain := remainOf log.total
  if remain ≤ 0 then none
  else
    let entries ← log.lines.read
    let text ← printLines entries remain
    some ({ contents := some (text, log.total.setWidth 32) }, log)

/-- `log_open_file` once it has a slot. -/
def openSlotFile (file : File) (log : LogT) : LogT :=
  { log with inUse := true, logfile := some file, filename := none, size := 0 }

/-- What `log_open` adds to that. -/
def openSlotName (filename : Bytes) (o : Outcome) (log : LogT) : LogT :=
  { log with
    filename := some (cString filename), size := o.stat.getD log.size, entries := 0,
    lines := { log.lines with head := none, tail := .head } }

/-- A slot that `log_open_file` or, under a name, `log_open` has opened. -/
def openSlot (file : File) (named : Option (Bytes × Outcome)) (log : LogT) : LogT :=
  match named with
  | none => openSlotFile file log
  | some (filename, o) => openSlotName filename o (openSlotFile file log)

/-! All slots. -/

/-- `LOG_MAXLOGS` -/
abbrev logMaxlogs : Nat := 25

/-- `loglist` -/
abbrev Loglist := Fin logMaxlogs → LogT

def loglistInitialize : Loglist := fun _ => logInitialize

/-- `_get_log_id`: the first slot that is not in use. -/
def getLogId (loglist : Loglist) : Option (Fin logMaxlogs) :=
  (List.finRange logMaxlogs).find? fun i => (loglist i).inUse = false

/-- A call on one slot. -/
inductive SlotCall where
  | setTrigger (trigger : BitVec 32)
  | setFilename (filename : Option Bytes)
  | setArchiveTimestamp (value : Int)
  | setLinesKept (count : BitVec 32)
  | setLevel (level : BitVec 32)
  | flush
  | reopen
  | close
  | write (o : Outcome) (priority : BitVec 32) (date : Text 256) (cat func : Bytes) (line : Text 1024)
  | writeDirect (o : Outcome) (line : Text 1024)
  | contents
  | contentsArray (mem : Bool)

/-- A call on the slot with number `id`. -/
def slotStep (id : Int) : SlotCall → LogT → Option (Reply × LogT)
  | .setTrigger trigger, log => some ({}, logSetTrigger trigger log)
  | .setFilename filename, log => some (logSetFilename id filename log)
  | .setArchiveTimestamp value, log => some (logSetArchiveTimestamp id value log)
  | .setLinesKept count, log => (logSetLinesKept count log).map fun log => ({}, log)
  | .setLevel level, log => some ({}, logSetLevel level log)
  | .flush, log => some (logFlush log)
  | .reopen, log => some (logReopen log)
  | .close, log => logClose log
  | .write o priority date cat func line, log => logWrite o priority date cat func line log
  | .writeDirect o line, log => logWriteDirect o line log
  | .contents, log => logContents log
  | .contentsArray mem, log => logContentsArray mem log

/-- What a call on a number out of range gives back. -/
def badId : SlotCall → Reply
  | .setFilename _ => { ret := logEinsane }
  | .setArchiveTimestamp _ => { ret := logEinsane }
  | _ => {}

/-- Any call. -/
inductive LogCall where
  | openFile (file : Option File)
  | open (filename : Option Bytes) (o : Outcome)
  | on (id : Int) (call : SlotCall)

/-- `log_open_file` -/
def logOpenFile (file : Option File) (loglist : Loglist) : Reply × Loglist × Option (Fin logMaxlogs) :=
  match file with
  | none => ({ ret := logEinsane }, loglist, none)
  | some f =>
    match getLogId loglist with
    | none => ({ ret := logEnomorelogs }, loglist, none)
    | some id =>
      ({ ret := (id.val : Int) }, Function.update loglist id (openSlotFile f (loglist id)), some id)

/-- `log_open` -/
def logOpen (filename : Option Bytes) (o : Outcome) (loglist : Loglist) :
    Reply × Loglist × Option (Fin logMaxlogs) :=
  match filename.map cString with
  | none => ({ ret := logEinsane }, loglist, none)
  | some [] => ({ ret := logEinsane }, loglist, none)
  | some (c :: name) =>
    match logOpenFile o.fopen loglist with
    | (reply, loglist, none) => ({ reply with events := [.fopen (c :: name)] }, loglist, none)
    | (reply, loglist, some id) =>
      ({ reply with events := [.fopen (c :: name)] },
        Function.update loglist id (openSlotName (c :: name) o (loglist id)), some id)

/-- One call. -/
def logStep : LogCall → Loglist → Option (Reply × Loglist)
  | .openFile file, loglist => some ((logOpenFile file loglist).1, (logOpenFile file loglist).2.1)
  | .open filename o, loglist => some ((logOpen filename o loglist).1, (logOpen filename o loglist).2.1)
  | .on id call, loglist =>
    if h : 0 ≤ id ∧ id < logMaxlogs then
      let i : Fin logMaxlogs := ⟨id.toNat, by have := h.2; omega⟩
      (slotStep id call (loglist i)).map fun r => (r.1, Function.update loglist i r.2)
    else some (badId call, loglist)

end IcecastCommon.Log
