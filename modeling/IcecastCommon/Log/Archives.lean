import IcecastCommon.Log.Files

/- The log on disk. When its file has grown over the trigger it is renamed to an archive and begun
   anew. Calls on one named log are followed on a disk with names, whatever `fopen`, `rename`, `stat`
   and the clock answer: what has been printed stands in the archives, in order, and behind them in
   the log. An archive is lost only when a later one takes its name. -/
namespace IcecastCommon.Log
open Library
open Encoding (Bytes nul lf cString cString_of_plain)

/-! Files. -/

/-- A text that was renamed away, under its new name. -/
structure Archive where
  name : Bytes
  text : Bytes
deriving DecidableEq, Repr

/-- The files by name, and the name of the file that a stream writes to. What has been renamed is noted, oldest
first. -/
structure Disk where
  files : Bytes → Option Bytes
  streams : File → Option Bytes
  moved : List Archive

namespace Disk

/-- The bytes of a file, none where there is no file. -/
def content (d : Disk) (name : Bytes) : Bytes := (d.files name).getD []

/-- `rename`. Streams follow their file, and a file that had the new name is gone. -/
def rename (d : Disk) (old new : Bytes) : Disk :=
  match d.files old with
  | none => d
  | some text =>
    if old = new then d
    else
      { files := Function.update (Function.update d.files old none) new (some text)
        streams := fun f => if d.streams f = some old then some new
          else if d.streams f = some new then none else d.streams f
        moved := d.moved ++ [⟨new, text⟩] }

/-- An event, where `fopen` answers as given and `rename` succeeds or not. Files are opened to append. -/
def event (fopen : Option File) (renamed : Bool) (d : Disk) : Event → Disk
  | .fopen name =>
    match fopen with
    | none => d
    | some f =>
      { d with
        files := Function.update d.files name (some (d.content name))
        streams := Function.update d.streams f (some name) }
  | .fclose f => { d with streams := Function.update d.streams f none }
  | .rename old new => if renamed then d.rename old new else d
  | .fprintf f text =>
    match d.streams f with
    | none => d
    | some name => { d with files := Function.update d.files name (some (d.content name ++ text)) }
  | .fflush _ => d

def events (fopen : Option File) (renamed : Bool) (d : Disk) (es : List Event) : Disk :=
  es.foldl (event fopen renamed) d

end Disk

/-- A log with the disk. -/
structure OnDisk where
  log : LogT
  disk : Disk

/-- A call, and whether `rename` succeeds in it. -/
structure DiskCall where
  call : SlotCall
  renamed : Bool

def diskStep (id : Int) (c : DiskCall) (s : OnDisk) : Option (Reply × OnDisk) :=
  (slotStep id c.call s.log).map fun r => (r.1, ⟨r.2, s.disk.events (slotFopen c.call) c.renamed r.1.events⟩)

/-- The text that is printed. -/
def printedText : List Event → Bytes
  | [] => []
  | .fprintf _ text :: events => text ++ printedText events
  | _ :: events => printedText events

/-- The text printed so far. -/
def printedSoFar (text : Bytes) (_ : DiskCall) (reply : Reply) : Bytes := text ++ printedText reply.events

/-- The text printed is recorded behind what was there. -/
theorem history_printed (text : Bytes) (calls : List DiskCall) (replies : List Reply) :
    text ++ history printedSoFar [] calls replies = history printedSoFar text calls replies := by
  have hfrom (start : Bytes) : history printedSoFar (text ++ start) calls replies =
      text ++ history printedSoFar start calls replies := by
    induction calls generalizing start replies with
    | nil => rfl
    | cons call calls ih =>
      cases replies with
      | nil => rfl
      | cons reply replies =>
        rw [history, history, printedSoFar, List.append_assoc]
        exact ih _ _
  have hnil := hfrom []
  rw [List.append_nil] at hnil
  exact hnil.symm

/-! What a log is for. -/

/-- The archive that kept a name: the last one that took it. -/
def lastOf (archives : List Archive) (name : Bytes) : Option Bytes :=
  (archives.reverse.find? fun a => a.name = name).map Archive.text

theorem lastOf_append (archives : List Archive) (a : Archive) (name : Bytes) :
    lastOf (archives ++ [a]) name = if a.name = name then some a.text else lastOf archives name := by
  unfold lastOf
  rw [List.reverse_append, List.reverse_singleton, List.singleton_append, List.find?_cons]
  by_cases h : a.name = name
  · simp only [h, decide_true, if_true, Option.map_some]
  · simp only [h, decide_false, if_false]

/-- The disk holds `text` in the archives of the log `name`, in order, and behind them in its file, whose stream is
`file`. No archive has the name of the log. Other names are as they were at `first` unless an archive took them. -/
structure Stores (name : Bytes) (first : Bytes → Option Bytes) (text : Bytes) (file : Option File) (d : Disk) :
    Prop where
  stream : ∀ f, file = some f → d.streams f = some name
  whole : d.moved.flatMap Archive.text ++ d.content name = text
  apart : ∀ a ∈ d.moved, a.name ≠ name
  others : ∀ n, n ≠ name → d.files n = (lastOf d.moved n).or (first n)

/-- After the events the disk holds what it held and the text printed. -/
def Records (name : Bytes) (first : Bytes → Option Bytes) (fopen : Option File) (renamed : Bool) (file : Option File)
    (es : List Event) (file' : Option File) : Prop :=
  ∀ text d, Stores name first text file d →
    Stores name first (text ++ printedText es) file' (d.events fopen renamed es)

/-! Events. -/

section
variable {name : Bytes} {first : Bytes → Option Bytes} {text : Bytes} {d : Disk}

theorem Stores.fopen (S : Stores name first text none d) (fopen : Option File) (renamed : Bool) :
    Stores name first text fopen (d.event fopen renamed (.fopen name)) := by
  cases fopen with
  | none => exact S
  | some f =>
    refine ⟨fun g hg => ?_, ?_, S.apart, fun n hn => ?_⟩
    · cases hg
      exact Function.update_self _ _ _
    · show d.moved.flatMap Archive.text ++ (Function.update d.files name _ name).getD [] = _
      rw [Function.update_self]
      exact S.whole
    · show Function.update d.files name _ n = _
      rw [Function.update_of_ne hn]
      exact S.others n hn

theorem Stores.fclose {file : Option File} (S : Stores name first text file d) (fopen : Option File)
    (renamed : Bool) (f : File) : Stores name first text none (d.event fopen renamed (.fclose f)) :=
  ⟨fun _ hg => absurd hg.symm (Option.some_ne_none _), S.whole, S.apart, S.others⟩

/-- The log becomes an archive, unless nothing is renamed. -/
theorem Stores.rename (S : Stores name first text none d) {new : Bytes} (hnew : new ≠ name) (fopen : Option File)
    (renamed : Bool) : Stores name first text none (d.event fopen renamed (.rename name new)) := by
  cases renamed with
  | false => exact S
  | true =>
    show Stores name first text none (d.rename name new)
    cases hfile : d.files name with
    | none =>
      rw [Disk.rename, hfile]
      exact S
    | some old =>
      have hmoved : d.rename name new =
          { files := Function.update (Function.update d.files name none) new (some old)
            streams := fun f => if d.streams f = some name then some new
              else if d.streams f = some new then none else d.streams f
            moved := d.moved ++ [⟨new, old⟩] } := by
        rw [Disk.rename, hfile]
        exact if_neg hnew.symm
      have hwhole : d.moved.flatMap Archive.text ++ old = text := by
        rw [← S.whole, Disk.content, hfile]
        rfl
      rw [hmoved]
      refine ⟨fun _ hg => absurd hg.symm (Option.some_ne_none _), ?_, fun a ha => ?_, fun n hn => ?_⟩
      · rw [Disk.content]
        dsimp only
        rw [Function.update_of_ne hnew.symm, Function.update_self, ← hwhole, List.flatMap_append]
        simp only [List.flatMap_cons, List.flatMap_nil, List.append_nil, Option.getD_none]
      · rcases List.mem_append.mp ha with ha | ha
        · exact S.apart a ha
        · rw [List.mem_singleton.mp ha]
          exact hnew
      · dsimp only
        rw [lastOf_append]
        by_cases hn' : new = n
        · subst hn'
          rw [Function.update_self, if_pos rfl]
          rfl
        · rw [Function.update_of_ne (Ne.symm hn'), Function.update_of_ne hn, if_neg hn']
          exact S.others n hn

theorem Stores.fprintf {f : File} (S : Stores name first text (some f) d) (fopen : Option File) (renamed : Bool)
    (line : Bytes) : Stores name first (text ++ line) (some f) (d.event fopen renamed (.fprintf f line)) := by
  have hstream := S.stream f rfl
  have hevent : d.event fopen renamed (.fprintf f line) =
      { d with files := Function.update d.files name (some (d.content name ++ line)) } := by
    simp only [Disk.event, hstream]
  rw [hevent]
  refine ⟨S.stream, ?_, S.apart, fun n hn => ?_⟩
  · show d.moved.flatMap Archive.text ++ (Function.update d.files name _ name).getD [] = _
    rw [Function.update_self, ← S.whole, List.append_assoc]
    rfl
  · show Function.update d.files name _ n = _
    rw [Function.update_of_ne hn]
    exact S.others n hn

end

/-- The name of an archive is not the name of the log, which is shorter than the buffer it is made in. -/
theorem archiveName_ne (o : Outcome) (log : LogT) {name : Bytes} (hplain : nul ∉ name)
    (hlen : name.length < 4095) : archiveName o log name ≠ name := by
  have hmore : ∀ c (rest : Bytes), c ≠ nul → cString (snprintf 4096 (name ++ c :: rest)) ≠ name := by
    intro c rest hc heq
    rw [cString_snprintf] at heq
    have htake : (name ++ c :: rest).take (4096 - 1) = (name ++ [c]) ++ rest.take (4095 - (name.length + 1)) := by
      have hsplit : name ++ c :: rest = (name ++ [c]) ++ rest := by simp
      rw [hsplit, List.take_append, List.take_of_length_le (by simp; omega)]
      simp
    rw [htake] at heq
    have hprefix : name ++ [c] <+: cString ((name ++ [c]) ++ rest.take (4095 - (name.length + 1))) := by
      unfold cString
      rw [List.takeWhile_append_of_pos]
      · exact List.prefix_append _ _
      · intro x hx
        rcases List.mem_append.mp hx with hx | hx
        · exact decide_eq_true fun h => hplain (h ▸ hx)
        · rw [List.mem_singleton.mp hx]
          exact decide_eq_true hc
    rw [heq] at hprefix
    have hle := hprefix.length_le
    simp at hle
  unfold archiveName
  split
  · have hsplit : name ++ [46] ++ o.timestamp = name ++ 46 :: o.timestamp := by simp
    rw [hsplit]
    exact hmore _ _ (by decide)
  · exact hmore _ _ (by decide)

theorem printedText_append (es es' : List Event) : printedText (es ++ es') = printedText es ++ printedText es' := by
  induction es with
  | nil => rfl
  | cons e es ih =>
    cases e with
    | fprintf f text =>
      show text ++ printedText (es ++ es') = text ++ printedText es ++ printedText es'
      rw [ih, List.append_assoc]
    | fopen name => exact ih
    | fclose f => exact ih
    | rename old new => exact ih
    | fflush f => exact ih

/-- Whatever is done with the file of a slot of this name, nothing printed is lost. -/
theorem Acts.records {name : Bytes} {first : Bytes → Option Bytes} {fopen : Option File} {renamed : Bool}
    {file file' : Option File} {es : List Event} (hplain : nul ∉ name) (hlen : name.length < 4095)
    (A : Acts fopen (some name) file es file') : Records name first fopen renamed file es file' := by
  induction A with
  | quiet file =>
    intro text d S
    show Stores _ _ (text ++ []) _ _
    rw [List.append_nil]
    exact S
  | fopen h =>
    cases h
    intro text d S
    show Stores _ _ (text ++ []) _ _
    rw [List.append_nil]
    exact S.fopen fopen renamed
  | fclose f =>
    intro text d S
    show Stores _ _ (text ++ []) _ _
    rw [List.append_nil]
    exact S.fclose fopen renamed f
  | rename h o log =>
    cases h
    intro text d S
    show Stores _ _ (text ++ []) _ _
    rw [List.append_nil]
    exact S.rename (archiveName_ne o log hplain hlen) fopen renamed
  | fprintf f line =>
    intro text d S
    show Stores _ _ (text ++ (line ++ [])) _ _
    rw [List.append_nil]
    exact S.fprintf fopen renamed line
  | fflush file =>
    intro text d S
    show Stores _ _ (text ++ []) _ _
    rw [List.append_nil]
    exact S
  | append h h' ih ih' =>
    intro text d S
    rw [printedText_append, ← List.append_assoc, Disk.events, List.foldl_append]
    exact ih' _ _ (ih text d S)

/-! Runs. -/

/-- A log that `log_open` has opened, on the disk that its `fopen` leaves; renames are noted from there. -/
def openedOnDisk (o : Outcome) (name : Bytes) (log : LogT) (d : Disk) : OnDisk :=
  ⟨log, { d.event o.fopen false (.fopen name) with moved := [] }⟩

/-- A log after a run of calls that keep its name: all that stood in its file and was printed is there. -/
structure Archived (name : Bytes) (first : Bytes → Option Bytes) (text : Bytes) (s : OnDisk) : Prop where
  filename : s.log.filename = some name
  unheld : Unheld s.log
  stores : Stores name first text s.log.logfile s.disk

theorem diskStep_archived {id : Int} {c : DiskCall} {s s' : OnDisk} {reply : Reply} {name text : Bytes}
    {first : Bytes → Option Bytes} (hplain : nul ∉ name) (hlen : name.length < 4095)
    (hcall : c.call.isSetFilename = false) (A : Archived name first text s)
    (h : diskStep id c s = some (reply, s')) : Archived name first (printedSoFar text c reply) s' := by
  obtain ⟨⟨reply', log'⟩, hstep, h⟩ := Option.map_eq_some_iff.mp h
  cases h
  obtain ⟨hacts, U, hname⟩ := slotStep_acts A.unheld hstep
  unfold SlotActs at hacts
  rw [A.filename] at hacts
  exact ⟨(hname hcall).trans A.filename, U, hacts.records hplain hlen text s.disk A.stores⟩

theorem run_archived {id : Int} {calls : List DiskCall} {s s' : OnDisk} {replies : List Reply}
    {name text : Bytes} {first : Bytes → Option Bytes} (hplain : nul ∉ name) (hlen : name.length < 4095)
    (hcalls : ∀ c ∈ calls, c.call.isSetFilename = false) (A : Archived name first text s)
    (h : runCalls (diskStep id) calls s = some (replies, s')) :
    Archived name first (history printedSoFar text calls replies) s' := by
  induction calls generalizing s text replies with
  | nil =>
    cases h
    exact A
  | cons c calls ih =>
    obtain ⟨reply, mid, replies, hstep, hrest, rfl⟩ := runCalls_cons_inv h
    have A' := diskStep_archived hplain hlen (hcalls c List.mem_cons_self) A hstep
    exact ih (fun c hc => hcalls c (List.mem_cons_of_mem _ hc)) A' hrest

/-- In every run on a log that `log_open` has opened and that keeps its name, what stood in the file and what was
printed is the text of what was renamed away, in order, and then of the log's file. Nothing is renamed to the log's
own name, and a file of another name is what was last renamed to it, or as it was. -/
theorem archives_of_run {name : Bytes} {o : Outcome} {loglist loglist' : Loglist} {i : Fin logMaxlogs} {d : Disk}
    {calls : List DiskCall} {replies : List Reply} {s : OnDisk} (hplain : nul ∉ name) (hlen : name.length < 4095)
    (hopen : (logOpen (some name) o loglist).2 = (loglist', some i))
    (hcalls : ∀ c ∈ calls, c.call.isSetFilename = false)
    (hrun : runCalls (diskStep i.val) calls (openedOnDisk o name (loglist' i) d) = some (replies, s)) :
    d.content name ++ history printedSoFar [] calls replies =
        s.disk.moved.flatMap Archive.text ++ s.disk.content name ∧
      (∀ a ∈ s.disk.moved, a.name ≠ name) ∧
      ∀ n, n ≠ name → s.disk.files n = (lastOf s.disk.moved n).or (d.files n) := by
  obtain ⟨name', f, hname, hfopen, _, hlog⟩ := logOpen_opened hopen
  obtain rfl : name = name' := (cString_of_plain hplain).symm.trans (Option.some.inj hname)
  have hstart : Archived name d.files (d.content name) (openedOnDisk o name (loglist' i) d) := by
    have S : Stores name d.files (d.content name) none { d with moved := [] } :=
      ⟨fun _ hg => absurd hg.symm (Option.some_ne_none _), rfl, fun a ha => absurd ha List.not_mem_nil, fun n hn => rfl⟩
    rw [openedOnDisk, hlog, hfopen]
    exact ⟨congrArg some (cString_of_plain hplain), fun hdead => Bool.noConfusion hdead, S.fopen (some f) false⟩
  have A := run_archived hplain hlen hcalls hstart hrun
  refine ⟨?_, A.stores.apart, A.stores.others⟩
  rw [A.stores.whole]
  exact history_printed _ _ _

/-- A file `a` and no other. -/
def diskWithA : Disk where
  files := fun n => if n = [97] then some [98, 10] else none
  streams := fun _ => none
  moved := []

/-- The log `a` is rotated at each of three writes; the third time it cannot be renamed. -/
def rotatedRun : List DiskCall :=
  [⟨.setTrigger 1, true⟩, ⟨.writeDirect (opensFile 2) lineA, true⟩, ⟨.writeDirect (opensFile 3) lineA, true⟩,
    ⟨.writeDirect (opensFile 4) lineA, false⟩]

/-- A log is opened and closed, and one opened in its slot is rotated. -/
theorem archives_of_run_rotated : ∃ before loglist loglist' replies s,
    runCalls logStep [.openFile (some 0), .on 0 .close] loglistInitialize = some (before, loglist) ∧
      (logOpen (some [97]) (opensFile 1) loglist).2 = (loglist', some 0) ∧
      runCalls (diskStep 0) rotatedRun (openedOnDisk (opensFile 1) [97] (loglist' 0) diskWithA) = some (replies, s) ∧
      [98, 10, 97, 10, 97, 10, 97, 10] = s.disk.moved.flatMap Archive.text ++ s.disk.content [97] ∧
      (∀ a ∈ s.disk.moved, a.name ≠ [97]) ∧
      ∀ n, n ≠ [97] → s.disk.files n = (lastOf s.disk.moved n).or (diskWithA.files n) := by
  obtain ⟨before, loglist, loglist', replies, s, hbefore, hopen, hrun, hprinted⟩ :
      ∃ before loglist loglist' replies s,
        runCalls logStep [.openFile (some 0), .on 0 .close] loglistInitialize = some (before, loglist) ∧
        (logOpen (some [97]) (opensFile 1) loglist).2 = (loglist', some 0) ∧
        runCalls (diskStep 0) rotatedRun (openedOnDisk (opensFile 1) [97] (loglist' 0) diskWithA) =
          some (replies, s) ∧
        history printedSoFar [] rotatedRun replies = [97, 10, 97, 10, 97, 10] :=
    ⟨_, _, _, _, _, rfl, rfl, rfl, by decide +kernel⟩
  obtain ⟨hall, hnames, hothers⟩ := archives_of_run nul_notMem_a (by decide) hopen (by decide) hrun
  rw [hprinted] at hall
  exact ⟨before, loglist, loglist', replies, s, hbefore, hopen, hrun, hall, hnames, hothers⟩

end IcecastCommon.Log
