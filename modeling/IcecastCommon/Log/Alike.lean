import IcecastCommon.Log.Slot

/- Two slots that differ in the addresses of their entries only cannot be told apart. -/
namespace IcecastCommon.Log
open Library
open Encoding (Bytes nul lf cString)

/-- The same slot, up to the addresses of the entries. -/
structure Alike (log log' : LogT) : Prop where
  fields : log' = { log with lines := log'.lines }
  lines : log.lines.Alike log'.lines

theorem alike_lines {log : LogT} {q : Queue LogEntry} (h : log.lines.Alike q) :
    Alike log { log with lines := q } := ⟨rfl, h⟩

/-- Alike slots are one slot with two queues. -/
theorem Alike.elim {motive : LogT → LogT → Prop}
    (h : ∀ log q, log.lines.Alike q → motive log { log with lines := q }) {log log' : LogT}
    (A : Alike log log') : motive log log' := by
  rw [A.fields]
  exact h log log'.lines A.lines

/-- `_log_open` does not look at the lines. -/
theorem logOpenSlot_lines (o : Outcome) (log : LogT) (q : Queue LogEntry) :
    logOpenSlot o { log with lines := q } =
      ((logOpenSlot o log).1, (logOpenSlot o log).2.1, { (logOpenSlot o log).2.2 with lines := q }) ∧
    (logOpenSlot o log).2.2.lines = log.lines := by
  obtain ⟨inUse, level, filename, logfile, size, trigger, archive, total, entries, keep, lines⟩ := log
  unfold logOpenSlot
  cases inUse with
  | false => exact ⟨rfl, rfl⟩
  | true =>
    simp only [Bool.true_eq_false, if_false]
    by_cases hopen : logfile = none ∨ trigger ≠ 0 ∧ size > trigger
    · simp only [if_pos hopen]
      cases filename with
      | none => exact ⟨rfl, rfl⟩
      | some filename => cases o.fopen <;> cases logfile <;> exact ⟨rfl, rfl⟩
    · simp only [if_neg hopen]
      exact ⟨trivial, trivial⟩

theorem dropFirst_alike {log log' : LogT} (A : Alike log log') :
    Option.Rel Alike (dropFirst log) (dropFirst log') := by
  apply A.elim
  intro log q hq
  apply rel_map hq.pop
  intro r r' hr
  obtain ⟨e, p⟩ := r
  obtain ⟨e', p'⟩ := r'
  obtain ⟨rfl, hp⟩ : e = e' ∧ p.Alike p' := hr
  exact ⟨rfl, hp⟩

theorem trimTo_alike (count : BitVec 32) (fuel : Nat) {log log' : LogT} (A : Alike log log') :
    Option.Rel Alike (trimTo count fuel log) (trimTo count fuel log') := by
  induction fuel generalizing log log' with
  | zero =>
    have hentries : log'.entries = log.entries := by rw [A.fields]
    rw [trimTo, trimTo, hentries]
    split
    · exact .none
    · exact .some A
  | succ fuel ih =>
    have hentries : log'.entries = log.entries := by rw [A.fields]
    rw [trimTo, trimTo, hentries]
    split
    · apply rel_bind (dropFirst_alike A)
      intro d d' D
      apply ih
      apply D.elim
      intro d q hq
      exact ⟨rfl, hq⟩
    · exact .some A

theorem createLogEntry_alike (o : Outcome) (pre line : Bytes) {log log' : LogT} (A : Alike log log') :
    Option.Rel (fun r r' => r.1 = r'.1 ∧ r.2.1 = r'.2.1 ∧ Alike r.2.2 r'.2.2)
      (createLogEntry o log pre line) (createLogEntry o log' pre line) := by
  apply A.elim
  intro log q hq
  obtain ⟨inUse, level, filename, logfile, size, trigger, archive, total, entries, keep, lines⟩ := log
  unfold createLogEntry
  cases logfile with
  | none => exact .none
  | some f =>
    simp only [Option.bind_eq_bind, Option.bind_some]
    split
    · exact .some ⟨rfl, rfl, alike_lines hq⟩
    · apply rel_bind (hq.push _)
      intro p p' hp
      split
      · apply rel_bind (dropFirst_alike ⟨rfl, hp⟩)
        intro d d' D
        exact .some ⟨rfl, rfl, D⟩
      · exact .some ⟨rfl, rfl, rfl, hp⟩

theorem writeEntry_alike (o : Outcome) (pre line : Bytes) {log log' : LogT} (A : Alike log log') :
    Option.Rel (SameOut Alike) (writeEntry o pre line log) (writeEntry o pre line log') := by
  apply A.elim
  intro log q hq
  obtain ⟨hopen, hlines⟩ := logOpenSlot_lines o log q
  rw [writeEntry, writeEntry, hopen]
  generalize logOpenSlot o log = r at hlines
  obtain ⟨ok, events, log⟩ := r
  have A : Alike log { log with lines := q } := alike_lines (hlines.symm ▸ hq)
  cases ok with
  | false => exact .some ⟨rfl, A⟩
  | true =>
    apply rel_bind (createLogEntry_alike o pre line A)
    intro r r' hr
    obtain ⟨len, printed, d⟩ := r
    obtain ⟨len', printed', d'⟩ := r'
    obtain ⟨rfl, rfl, D⟩ : len = len' ∧ printed = printed' ∧ Alike d d' := hr
    refine .some ⟨rfl, ?_⟩
    show Alike (if len > 0 then _ else d) (if len > 0 then _ else d')
    split
    · apply D.elim
      intro d q hq
      exact ⟨rfl, hq⟩
    · exact D

/-- No call on a slot tells alike slots apart. -/
theorem slotStep_alike (id : Int) (call : SlotCall) {log log' : LogT} (A : Alike log log') :
    Option.Rel (SameOut Alike) (slotStep id call log) (slotStep id call log') := by
  apply A.elim
  intro log q hq
  obtain ⟨inUse, level, filename, logfile, size, trigger, archive, total, entries, keep, lines⟩ := log
  have A := alike_lines hq
  cases call with
  | setTrigger trigger =>
    refine .some ⟨rfl, ?_⟩
    unfold logSetTrigger
    cases inUse <;> exact ⟨rfl, hq⟩
  | setFilename filename =>
    simp only [slotStep, logSetFilename]
    split <;> exact .some ⟨rfl, rfl, hq⟩
  | setArchiveTimestamp value => exact .some ⟨rfl, rfl, hq⟩
  | setLinesKept count =>
    simp only [slotStep, logSetLinesKept]
    split
    · exact .some ⟨rfl, A⟩
    · apply rel_map (trimTo_alike count entries.toNat ⟨rfl, hq⟩)
      intro d d' D
      exact ⟨rfl, D⟩
  | setLevel level =>
    refine .some ⟨rfl, ?_⟩
    unfold logSetLevel
    cases inUse <;> exact ⟨rfl, hq⟩
  | flush =>
    simp only [slotStep, logFlush]
    split
    · exact .some ⟨rfl, A⟩
    · cases logfile <;> exact .some ⟨rfl, A⟩
  | reopen =>
    simp only [slotStep, logReopen]
    cases filename <;> cases logfile <;> exact .some ⟨rfl, rfl, hq⟩
  | close =>
    simp only [slotStep, logClose]
    split
    · exact .some ⟨rfl, A⟩
    · apply rel_map (trimTo_alike 0 entries.toNat ⟨rfl, hq⟩)
      intro d d' D
      exact ⟨rfl, D⟩
  | write o priority date cat func line =>
    simp only [slotStep, logWrite]
    split
    · exact .some ⟨rfl, A⟩
    · split
      · exact .some ⟨rfl, A⟩
      · apply rel_map (writeEntry_alike o _ _ A)
        intro r r' hr
        exact ⟨congrArg (fun e => ({ events := e } : Reply)) hr.1, hr.2⟩
  | writeDirect o line =>
    simp only [slotStep, logWriteDirect]
    apply rel_map (writeEntry_alike o [] line.bytes A)
    intro r r' hr
    refine ⟨?_, hr.2⟩
    have hfile : r'.2.logfile = r.2.logfile := by rw [hr.2.fields]
    rw [hr.1, hfile]
  | contents =>
    simp only [slotStep, logContents, hq.read]
    split
    · exact .none
    · generalize q.read = entries
      cases entries with
      | none => exact .none
      | some entries =>
        simp only [Option.bind_eq_bind, Option.bind_some]
        cases printLines entries (remainOf total) with
        | none => exact .none
        | some text => exact .some ⟨rfl, A⟩
  | contentsArray mem =>
    simp only [slotStep, logContentsArray, hq.read]
    split
    · exact .some ⟨rfl, A⟩
    · generalize q.read = entries
      cases entries with
      | none => exact .none
      | some entries => exact .some ⟨rfl, A⟩

/-! All slots. -/

/-- The same slot, or alike. -/
def Same (log log' : LogT) : Prop := log = log' ∨ Alike log log'

theorem Same.map {f : LogT → LogT} (hf : ∀ {log log'}, Alike log log' → Alike (f log) (f log'))
    {log log' : LogT} (h : Same log log') : Same (f log) (f log') := by
  rcases h with h | A
  · rw [h]
    exact Or.inl rfl
  · exact Or.inr (hf A)

theorem Same.inUse {log log' : LogT} (h : Same log log') : log'.inUse = log.inUse := by
  rcases h with h | A
  · rw [h]
  · rw [A.fields]

theorem rel_refl {A : Type} {r : A → A → Prop} (h : ∀ a, r a a) (x : Option A) : Option.Rel r x x := by
  cases x with
  | none => exact .none
  | some a => exact .some (h a)

theorem slotStep_same (id : Int) (call : SlotCall) {log log' : LogT} (h : Same log log') :
    Option.Rel (SameOut Same) (slotStep id call log) (slotStep id call log') := by
  rcases h with h | A
  · rw [h]
    exact rel_refl (fun r => ⟨rfl, Or.inl rfl⟩) _
  · have hrel := slotStep_alike id call A
    generalize slotStep id call log = x, slotStep id call log' = y at hrel
    cases hrel with
    | none => exact .none
    | some hr => exact .some ⟨hr.1, Or.inr hr.2⟩

/-- The slots of two lists of logs are pairwise the same or alike. -/
def AllSame (loglist loglist' : Loglist) : Prop := ∀ i, Same (loglist i) (loglist' i)

theorem AllSame.update {loglist loglist' : Loglist} (A : AllSame loglist loglist') (i : Fin logMaxlogs)
    {log log' : LogT} (h : Same log log') :
    AllSame (Function.update loglist i log) (Function.update loglist' i log') := by
  intro j
  by_cases hj : j = i
  · rw [hj, Function.update_self, Function.update_self]
    exact h
  · rw [Function.update_of_ne hj, Function.update_of_ne hj]
    exact A j

theorem getLogId_same {loglist loglist' : Loglist} (A : AllSame loglist loglist') :
    getLogId loglist' = getLogId loglist := by
  rw [getLogId, getLogId]
  congr 1
  funext i
  rw [(A i).inUse]

theorem openSlotFile_alike (file : File) {log log' : LogT} (A : Alike log log') :
    Alike (openSlotFile file log) (openSlotFile file log') := by
  apply A.elim
  intro log q hq
  exact ⟨rfl, hq⟩

/-- `log_open_file` goes the same way. -/
theorem logOpenFile_same (file : Option File) {loglist loglist' : Loglist} (A : AllSame loglist loglist') :
    ∃ reply l l' id, logOpenFile file loglist = (reply, l, id) ∧ logOpenFile file loglist' = (reply, l', id) ∧
      AllSame l l' := by
  cases file with
  | none => exact ⟨_, _, _, _, rfl, rfl, A⟩
  | some f =>
    rw [logOpenFile, logOpenFile, getLogId_same A]
    cases getLogId loglist with
    | none => exact ⟨_, _, _, _, rfl, rfl, A⟩
    | some i =>
      exact ⟨_, _, _, _, rfl, rfl, A.update i ((A i).map (openSlotFile_alike f))⟩

theorem openSlotName_alike (filename : Bytes) (o : Outcome) {log log' : LogT} (A : Alike log log') :
    Alike (openSlotName filename o log) (openSlotName filename o log') := by
  apply A.elim
  intro log q _
  exact ⟨rfl, Or.inl ⟨[], [], Queue.holds_reset log.lines, Queue.holds_reset q, rfl⟩⟩

/-- No call tells lists of logs apart whose slots are pairwise the same or alike. -/
theorem logStep_same (call : LogCall) {loglist loglist' : Loglist} (A : AllSame loglist loglist') :
    Option.Rel (SameOut AllSame) (logStep call loglist) (logStep call loglist') := by
  cases call with
  | openFile file =>
    obtain ⟨reply, l, l', id, h, h', B⟩ := logOpenFile_same file A
    rw [logStep, logStep, h, h']
    exact .some ⟨rfl, B⟩
  | «open» filename o =>
    refine .some ?_
    show SameOut AllSame ((logOpen filename o loglist).1, (logOpen filename o loglist).2.1)
      ((logOpen filename o loglist').1, (logOpen filename o loglist').2.1)
    rw [logOpen, logOpen]
    split
    · exact ⟨rfl, A⟩
    · exact ⟨rfl, A⟩
    · obtain ⟨reply, l, l', id, h, h', B⟩ := logOpenFile_same o.fopen A
      rw [h, h']
      cases id with
      | none => exact ⟨rfl, B⟩
      | some i => exact ⟨rfl, B.update i ((B i).map (openSlotName_alike _ o))⟩
  | on id call =>
    rcases slot_or_not id with hid | hid
    · obtain ⟨i, rfl⟩ := hid
      rw [logStep_on, logStep_on]
      apply rel_map (slotStep_same i.val call (A i))
      intro r r' hr
      exact ⟨hr.1, A.update i hr.2⟩
    · rw [logStep_bad hid, logStep_bad hid]
      exact .some ⟨rfl, A⟩

end IcecastCommon.Log
