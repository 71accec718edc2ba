import IcecastCommon.Log.Slot

/- The invariant of a slot over every history of calls: the lines it retains are in order, or
   have all gone with the tail left behind. `log_close` always goes through. -/
namespace IcecastCommon.Log
open Library
open Encoding (Bytes nul lf cString)

/-- The invariant of a slot: its lines are retained in order or have all gone with the tail
left behind, out of use it retains none and has its first level, and its trigger level is an
`unsigned`. -/
structure Settled (log : LogT) : Prop where
  lines : (∃ ls, Intact log ls ∧ ls.length ≤ log.keepEntries.toNat) ∨ Emptied log
  idle : log.inUse = false → log.level = 2 ∧ log.entries = 0
  trigger : 0 ≤ log.triggerLevel ∧ log.triggerLevel < 2 ^ 32

theorem Emptied.congr {log log' : LogT} (E : Emptied log) (hlines : log'.lines = log.lines)
    (htotal : log'.total = log.total) (hentries : log'.entries = log.entries) : Emptied log' :=
  ⟨hlines ▸ E.queue, hentries.trans E.entries, htotal.trans E.total⟩

theorem Settled.lines_congr {log log' : LogT} (S : Settled log)
    (hlines : log'.lines = log.lines ∧ log'.total = log.total ∧ log'.entries = log.entries)
    (hkeep : log'.keepEntries = log.keepEntries) :
    (∃ ls, Intact log' ls ∧ ls.length ≤ log'.keepEntries.toNat) ∨ Emptied log' := by
  rcases S.lines with h | E
  · obtain ⟨ls, I, hfit⟩ := h
    exact Or.inl ⟨ls, I.congr hlines.1 hlines.2.1 hlines.2.2, hkeep ▸ hfit⟩
  · exact Or.inr (E.congr hlines.1 hlines.2.1 hlines.2.2)

theorem Settled.congr {log log' : LogT} (S : Settled log)
    (hlines : log'.lines = log.lines ∧ log'.total = log.total ∧ log'.entries = log.entries)
    (hkeep : log'.keepEntries = log.keepEntries) (htrigger : log'.triggerLevel = log.triggerLevel)
    (hidle : log'.inUse = false → log'.level = 2 ∧ log'.entries = 0) : Settled log' :=
  ⟨S.lines_congr hlines hkeep, hidle, htrigger.symm ▸ S.trigger⟩

/-- Without entries there are no lines and no bytes. -/
theorem Settled.unlined {log : LogT} (S : Settled log) (h : log.entries = 0) :
    (log.lines.Holds [] ∨ log.lines.Broken) ∧ log.total = 0 := by
  rcases S.lines with hls | E
  · obtain ⟨ls, I, _⟩ := hls
    have hnil : ls = [] := by
      apply List.eq_nil_of_length_eq_zero
      rw [← I.entries, h]
      rfl
    rw [hnil] at I
    obtain ⟨cs, H, hcs⟩ := I.queue
    rw [List.map_eq_nil_iff.mp hcs] at H
    exact ⟨Or.inl H, I.total⟩
  · exact ⟨Or.inr E.queue, E.total⟩

theorem settled_unlined {log : LogT} (hlines : log.lines.Holds [] ∨ log.lines.Broken)
    (htotal : log.total = 0) (hentries : log.entries = 0) (hlevel : log.inUse = false → log.level = 2)
    (htrigger : 0 ≤ log.triggerLevel ∧ log.triggerLevel < 2 ^ 32) : Settled log := by
  refine ⟨?_, fun h => ⟨hlevel h, hentries⟩, htrigger⟩
  rcases hlines with H | B
  · exact Or.inl ⟨[], intact_nil H hentries htotal, Nat.zero_le _⟩
  · exact Or.inr ⟨B, hentries, htotal⟩

/-- The lines are in order, or have all gone. -/
def Orderly (log : LogT) : Prop := (∃ ls, Intact log ls) ∨ Emptied log

theorem Settled.orderly {log log' : LogT} (S : Settled log) (hlines : log'.lines = log.lines)
    (htotal : log'.total = log.total) (hentries : log'.entries = log.entries) : Orderly log' := by
  rcases S.lines with h | E
  · obtain ⟨ls, I, _⟩ := h
    exact Or.inl ⟨ls, I.congr hlines htotal hentries⟩
  · exact Or.inr (E.congr hlines htotal hentries)

/-- The loop that drops lines goes through. -/
theorem Orderly.trimTo {log : LogT} (h : Orderly log) (count : BitVec 32) :
    ∃ q t n, trimTo count log.entries.toNat log = some { log with lines := q, total := t, entries := n } ∧
      ((∃ ls, Intact { log with lines := q, total := t, entries := n } ls ∧ ls.length ≤ count.toNat) ∨
        Emptied { log with lines := q, total := t, entries := n }) := by
  rcases h with h | E
  · obtain ⟨ls, I⟩ := h
    by_cases hcount : count ≠ 0 ∨ ls = []
    · obtain ⟨q, t, n, htrim, I'⟩ := trimTo_spec I (le_of_eq I.entries.symm) hcount
      exact ⟨q, t, n, htrim, Or.inl ⟨_, I', keepLast_length_le _ _⟩⟩
    · have hzero : count = 0 ∧ ls ≠ [] := by simpa using hcount
      obtain ⟨rfl, hne⟩ := hzero
      obtain ⟨q, t, n, htrim, E⟩ := trimTo_zero I (le_of_eq I.entries.symm) hne
      exact ⟨q, t, n, htrim, Or.inr E⟩
  · exact ⟨log.lines, log.total, log.entries, trimTo_nothing E.entries _ _, Or.inr E⟩

theorem Settled.entries_zero {log : LogT} (S : Settled log) (hkeep : log.keepEntries = 0) :
    log.entries = 0 := by
  rcases S.lines with h | E
  · obtain ⟨ls, I, hfit⟩ := h
    have hz : log.entries.toNat = 0 := by
      rw [hkeep] at hfit
      exact I.entries.trans (Nat.le_zero.mp hfit)
    exact BitVec.eq_of_toNat_eq hz
  · exact E.entries

/-- An entry is made on a settled slot, unless that faults. -/
theorem createLogEntry_settled {o : Outcome} {log log' : LogT} {pre line : Bytes} {n : Int}
    {events : List Event} (S : Settled log) (hlive : log.inUse = true) (ht : LineOk (pre ++ line))
    (h : createLogEntry o log pre line = some (n, events, log')) :
    Settled log' ∧ log'.inUse = true := by
  cases hfile : log.logfile with
  | none =>
    unfold createLogEntry at h
    rw [Option.bind_eq_bind, bind_of_none hfile] at h
    cases h
  | some f =>
    by_cases hkeep : log.keepEntries = 0
    · rw [createLogEntry_unkept o log pre line hfile hkeep] at h
      cases h
      exact ⟨S, hlive⟩
    · rcases S.lines with hls | E
      · obtain ⟨ls, I, hfit⟩ := hls
        obtain ⟨q, t, m, e, I'⟩ := createLogEntry_spec o I hfit hfile ht hkeep
        rw [e] at h
        cases h
        refine ⟨⟨Or.inl ⟨_, I', keepLast_length_le _ _⟩, ?_, S.trigger⟩, hlive⟩
        intro hdead
        exact absurd (hlive.symm.trans hdead) Bool.noConfusion
      · rw [createLogEntry_broken o log pre line hkeep E.queue] at h
        cases h

theorem writeEntry_settled {o : Outcome} {log log' : LogT} {pre line : Bytes} {events : List Event}
    (S : Settled log) (ht : LineOk (pre ++ line)) (h : writeEntry o pre line log = some (events, log')) :
    Settled log' := by
  obtain ⟨ok, opened, file, size, hopen, _, _, hyes⟩ := logOpenSlot_spec o log
  rw [writeEntry, hopen] at h
  have S' : Settled { log with logfile := file, size := size } := S.congr ⟨rfl, rfl, rfl⟩ rfl rfl S.idle
  cases ok with
  | false =>
    cases h
    exact S'
  | true =>
    have hlive := (hyes rfl).1
    simp only [Option.bind_eq_bind, Option.bind_eq_some_iff] at h
    obtain ⟨⟨n, printed, d⟩, hcreate, h⟩ := h
    obtain ⟨D, hd⟩ := createLogEntry_settled S' hlive ht hcreate
    have hkept : Settled { d with size := d.size + n } := D.congr ⟨rfl, rfl, rfl⟩ rfl rfl D.idle
    cases h
    split
    · exact hkept
    · exact D

/-- `log_close` goes through and leaves the slot settled; what it does not reset stays. -/
theorem logClose_settled {log : LogT} (S : Settled log) :
    ∃ reply log', logClose log = some (reply, log') ∧ Settled log' ∧
      (log'.inUse = false ∧ log'.keepEntries = log.keepEntries ∧ log'.triggerLevel = log.triggerLevel ∧
        log'.archiveTimestamp = log.archiveTimestamp) ∧
      (log.keepEntries = 0 → log'.lines = log.lines) := by
  cases hlive : log.inUse with
  | false => exact ⟨{}, log, by rw [logClose, if_pos hlive], S, ⟨hlive, rfl, rfl, rfl⟩, fun _ => rfl⟩
  | true =>
    obtain ⟨reply, hclose⟩ := logClose_live hlive
    by_cases hentries : log.entries = 0
    · refine ⟨reply, { log with inUse := false, level := 2, logfile := none }, ?_, ?_, ⟨rfl, rfl, rfl, rfl⟩,
        fun _ => rfl⟩
      · rw [hclose]
        exact congrArg (Option.map _) (trimTo_nothing (by exact hentries) 0 _)
      · obtain ⟨hlines, htotal⟩ := S.unlined hentries
        exact settled_unlined hlines htotal hentries (fun _ => rfl) S.trigger
    · have O : Orderly { log with inUse := false, level := 2, logfile := none } := S.orderly rfl rfl rfl
      obtain ⟨q, t, n, htrim, hlines⟩ := O.trimTo 0
      refine ⟨reply, ⟨false, 2, log.filename, none, log.size, log.triggerLevel, log.archiveTimestamp, t, n,
        log.keepEntries, q⟩, ?_, ?_, ⟨rfl, rfl, rfl, rfl⟩, fun hkeep => absurd (S.entries_zero hkeep) hentries⟩
      · rw [hclose]
        exact congrArg (Option.map _) htrim
      · refine ⟨?_, fun _ => ⟨rfl, ?_⟩, S.trigger⟩
        · rcases hlines with h | E
          · obtain ⟨ls, I, hfit⟩ := h
            exact Or.inl ⟨ls, I, Nat.le_trans hfit (Nat.zero_le _)⟩
          · exact Or.inr E
        · rcases hlines with h | E
          · obtain ⟨ls, I, hfit⟩ := h
            exact BitVec.eq_of_toNat_eq (I.entries.trans (Nat.le_zero.mp hfit))
          · exact E.entries

/-- Every call that goes through leaves the slot settled. -/
theorem slotStep_settled {id : Int} {call : SlotCall} {log log' : LogT} {reply : Reply} (S : Settled log)
    (h : slotStep id call log = some (reply, log')) : Settled log' := by
  cases call with
  | setTrigger trigger =>
    cases h
    unfold logSetTrigger
    split
    · next hlive =>
      have hlt := (trigger * 1024).isLt
      refine ⟨S.lines_congr ⟨rfl, rfl, rfl⟩ rfl, fun hdead => ?_, Int.natCast_nonneg _, Int.ofNat_lt.mpr hlt⟩
      exact absurd (hlive.symm.trans hdead) Bool.noConfusion
    · exact S
  | setFilename filename =>
    have hlog : (logSetFilename id filename log).2 = log' := congrArg Prod.snd (Option.some.inj h)
    rw [← hlog]
    unfold logSetFilename
    split
    · exact S
    · exact S.congr ⟨rfl, rfl, rfl⟩ rfl rfl S.idle
  | setArchiveTimestamp value =>
    cases h
    exact S.congr ⟨rfl, rfl, rfl⟩ rfl rfl S.idle
  | setLinesKept count =>
    obtain ⟨d, hd, hlog⟩ := Option.map_eq_some_iff.mp h
    cases hlog
    cases hlive : log.inUse with
    | false =>
      rw [logSetLinesKept, if_pos hlive] at hd
      cases hd
      exact S
    | true =>
      have hdead : ¬ log.inUse = false := by
        rw [hlive]
        exact Bool.noConfusion
      have O : Orderly { log with keepEntries := count } := S.orderly rfl rfl rfl
      obtain ⟨q, t, n, htrim, hlines⟩ := O.trimTo count
      rw [logSetLinesKept, if_neg hdead, htrim] at hd
      cases hd
      exact ⟨hlines, fun h => absurd h hdead, S.trigger⟩
  | setLevel level =>
    cases h
    unfold logSetLevel
    split
    · exact S
    · next hdead => exact S.congr ⟨rfl, rfl, rfl⟩ rfl rfl fun h => absurd h hdead
  | flush =>
    have hlog : (logFlush log).2 = log' := congrArg Prod.snd (Option.some.inj h)
    rw [← hlog]
    unfold logFlush
    split
    · exact S
    · split <;> exact S
  | reopen =>
    have hlog : (logReopen log).2 = log' := congrArg Prod.snd (Option.some.inj h)
    rw [← hlog]
    unfold logReopen
    split
    · exact S.congr ⟨rfl, rfl, rfl⟩ rfl rfl S.idle
    · exact S
  | close =>
    obtain ⟨reply', d, hd, D, _⟩ := logClose_settled S
    obtain ⟨_, rfl⟩ := Prod.mk.inj (Option.some.inj (hd.symm.trans h))
    exact D
  | write o priority date cat func line =>
    change logWrite o priority date cat func line log = some (reply, log') at h
    rw [logWrite] at h
    split at h
    · cases h
      exact S
    · split at h
      · cases h
        exact S
      · obtain ⟨r, hr, hlog⟩ := Option.map_eq_some_iff.mp h
        cases hlog
        exact writeEntry_settled S (prefixed_ok date priority cat func line) hr
  | writeDirect o line =>
    have ht : LineOk ([] ++ line.bytes) := text_ok line
    obtain ⟨r, hr, hlog⟩ := Option.map_eq_some_iff.mp h
    cases hlog
    exact writeEntry_settled S ht hr
  | contents =>
    change logContents log = some (reply, log') at h
    rw [logContents] at h
    split at h
    · cases h
    · simp only [Option.bind_eq_bind, Option.bind_eq_some_iff] at h
      obtain ⟨entries, _, text, _, h⟩ := h
      cases h
      exact S
  | contentsArray mem =>
    change logContentsArray mem log = some (reply, log') at h
    rw [logContentsArray] at h
    split at h
    · cases h
      exact S
    · simp only [Option.bind_eq_bind, Option.bind_eq_some_iff] at h
      obtain ⟨entries, _, h⟩ := h
      cases h
      exact S

theorem openSlot_settled (file : File) (named : Option (Bytes × Outcome)) {log : LogT} (S : Settled log)
    (hidle : log.inUse = false) : Settled (openSlot file named log) := by
  obtain ⟨hlines, htotal⟩ := S.unlined (S.idle hidle).2
  cases named with
  | none => exact settled_unlined hlines htotal (S.idle hidle).2 (fun h => absurd h Bool.noConfusion) S.trigger
  | some no =>
    exact settled_unlined (Or.inl (Queue.holds_reset _)) htotal rfl (fun h => absurd h Bool.noConfusion) S.trigger

theorem logStep_settled {call : LogCall} {loglist loglist' : Loglist} {reply : Reply}
    (S : ∀ i, Settled (loglist i)) (h : logStep call loglist = some (reply, loglist')) :
    ∀ i, Settled (loglist' i) := by
  cases call with
  | openFile file =>
    have hlog : (logOpenFile file loglist).2.1 = loglist' := congrArg Prod.snd (Option.some.inj h)
    rw [← hlog]
    rcases logOpenFile_cases file loglist with h | h
    · obtain ⟨f, i, _, hidle, h⟩ := h
      rw [h]
      apply update_each S
      exact openSlot_settled f none (S i) hidle
    · rw [h]
      exact S
  | «open» filename o =>
    have hlog : (logOpen filename o loglist).2.1 = loglist' := congrArg Prod.snd (Option.some.inj h)
    rw [← hlog]
    rcases logOpen_cases filename o loglist with h | h
    · obtain ⟨name, f, i, _, _, hidle, h⟩ := h
      rw [h]
      apply update_each S
      exact openSlot_settled f (some (name, o)) (S i) hidle
    · rw [h]
      exact S
  | on id call =>
    rcases slot_or_not id with hid | hid
    · obtain ⟨i, rfl⟩ := hid
      rw [logStep_on] at h
      obtain ⟨r, hr, hlog⟩ := Option.map_eq_some_iff.mp h
      cases hlog
      apply update_each S
      exact slotStep_settled (S i) hr
    · rw [logStep_bad hid] at h
      cases h
      exact S

theorem initialize_settled (i : Fin logMaxlogs) : Settled (loglistInitialize i) := by
  have htrigger : 0 ≤ logInitialize.triggerLevel ∧ logInitialize.triggerLevel < 2 ^ 32 := by decide
  exact settled_unlined (Or.inl Queue.holds_empty) rfl rfl (fun _ => rfl) htrigger

theorem reached_settled {calls : List LogCall} {replies : List Reply} {loglist : Loglist}
    (hrun : runCalls logStep calls loglistInitialize = some (replies, loglist)) : ∀ i, Settled (loglist i) := by
  refine runCalls_preserves (P := fun slots => ∀ i, Settled (slots i)) ?_ initialize_settled hrun
  intro call slots reply slots' S hstep
  exact logStep_settled S hstep

end IcecastCommon.Log
