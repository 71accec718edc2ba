import IcecastCommon.Log.Code

/- What the functions of `log.c` do to one slot. `Intact` says that a slot's queue holds a
   list of lines and that its counters agree with it; an entry is appended, the oldest one
   dropped, and the list cut to a length, all with the queue's own rules. -/
namespace IcecastCommon.Log
open Library
open Encoding (Bytes nul lf cString cString_of_plain cString_append_nul nul_notMem_cString cString_length_le)

/-! Strings. -/

theorem cString_snprintf (n : Nat) (text : Bytes) :
    cString (snprintf n text) = cString (text.take (n - 1)) := cString_append_nul _ []

/-- A line that can be retained: no NUL, and short enough for an `unsigned` length. -/
def LineOk (text : Bytes) : Prop := nul ∉ text ∧ text.length < 2 ^ 16

/-- The entry of a line. -/
def entryOf (text : Bytes) : LogEntry :=
  { line := text ++ [lf, nul], len := BitVec.ofNat 32 (text.length + 2) }

theorem entryOf_len {text : Bytes} (h : LineOk text) : (entryOf text).len.toNat = text.length + 2 := by
  have := h.2
  rw [entryOf, BitVec.toNat_ofNat]
  omega

/-- `create_log_entry` builds the entry of its line. -/
theorem entry_eq {text : Bytes} (h : LineOk text) :
    snprintf (BitVec.ofNat 32 (text.length + 2)).toNat (text ++ [lf]) = (entryOf text).line := by
  have hlen := entryOf_len h
  rw [entryOf] at hlen
  rw [hlen, snprintf, entryOf, List.take_of_length_le (by simp)]
  simp

theorem cString_entryOf {text : Bytes} (h : LineOk text) : cString (entryOf text).line = text ++ [lf] := by
  have hplain : nul ∉ text ++ [lf] := by
    intro hm
    rcases List.mem_append.mp hm with hm | hm
    · exact h.1 hm
    · exact absurd hm (by decide)
  have hsplit : text ++ [lf, nul] = (text ++ [lf]) ++ [nul] := by simp
  rw [entryOf, hsplit, cString_append_nul, cString_of_plain hplain]

/-- `log_contents_array` copies the line without its newline. -/
theorem copyLine_entryOf {text : Bytes} (h : LineOk text) : copyLine (entryOf text) = text := by
  have hlen := entryOf_len h
  have hget : (entryOf text).line[text.length]? = some lf := by
    rw [entryOf]
    simp
  rw [copyLine, hlen, Nat.add_sub_cancel, if_pos hget, entryOf]
  have hset : (text ++ [lf, nul]).set text.length nul = text ++ [nul, nul] := by
    rw [List.set_append_right _ _ (Nat.le_refl _)]
    simp
  rw [hset, cString_append_nul, cString_of_plain h.1]

theorem linePrefix_ok (date : Text 256) (priority : BitVec 32) (cat func : Bytes) :
    nul ∉ linePrefix date priority cat func ∧ (linePrefix date priority cat func).length < 256 := by
  have hd := date.fits
  refine ⟨fun hm => ?_, ?_⟩
  · rcases List.mem_append.mp hm with hm | hm
    · exact date.plain hm
    · exact nul_notMem_cString _ hm
  · rw [linePrefix, List.length_append]
    rw [cString_snprintf]
    refine Nat.lt_of_le_of_lt (Nat.add_le_add_left (cString_length_le _) _) ?_
    rw [List.length_take]
    omega

theorem text_ok (line : Text 1024) : LineOk line.bytes := by
  have := line.fits
  exact ⟨line.plain, by omega⟩

theorem prefixed_ok (date : Text 256) (priority : BitVec 32) (cat func : Bytes) (line : Text 1024) :
    LineOk (linePrefix date priority cat func ++ line.bytes) := by
  obtain ⟨hnul, hlen⟩ := linePrefix_ok date priority cat func
  have := line.fits
  refine ⟨fun hm => ?_, ?_⟩
  · rcases List.mem_append.mp hm with hm | hm
    · exact hnul hm
    · exact line.plain hm
  · rw [List.length_append]
    omega

/-! The retained lines. -/

/-- The last `n` of a list. -/
def keepLast {α : Type} (n : Nat) (xs : List α) : List α := xs.drop (xs.length - n)

theorem keepLast_length_le {α : Type} (n : Nat) (xs : List α) : (keepLast n xs).length ≤ n := by
  rw [keepLast, List.length_drop]
  omega

/-- The bytes that the lines take up, with newline and NUL. -/
def lineBytes (ls : List Bytes) : Nat := (ls.map fun l => l.length + 2).sum

/-- The queue of the slot holds the lines `ls`, and `total` counts their bytes. -/
structure Lined (log : LogT) (ls : List Bytes) : Prop where
  queue : ∃ cs, log.lines.Holds cs ∧ cs.map Prod.snd = ls.map entryOf
  fine : ∀ l ∈ ls, LineOk l
  total : log.total = BitVec.ofNat 64 (lineBytes ls)

/-- The slot's counter of lines is right too. -/
structure Intact (log : LogT) (ls : List Bytes) : Prop extends Lined log ls where
  entries : log.entries.toNat = ls.length

/-- The only line has gone and the tail has been left in it. -/
structure Emptied (log : LogT) : Prop where
  queue : log.lines.Broken
  entries : log.entries = 0
  total : log.total = 0

theorem Lined.congr {log log' : LogT} {ls : List Bytes} (L : Lined log ls) (hlines : log'.lines = log.lines)
    (htotal : log'.total = log.total) : Lined log' ls :=
  ⟨hlines ▸ L.queue, L.fine, htotal.trans L.total⟩

theorem Intact.congr {log log' : LogT} {ls : List Bytes} (I : Intact log ls)
    (hlines : log'.lines = log.lines) (htotal : log'.total = log.total)
    (hentries : log'.entries = log.entries) : Intact log' ls :=
  ⟨I.toLined.congr hlines htotal, by rw [hentries, I.entries]⟩

theorem Intact.read {log : LogT} {ls : List Bytes} (I : Intact log ls) :
    log.lines.read = some (ls.map entryOf) := by
  obtain ⟨cs, H, hcs⟩ := I.queue
  rw [H.read, hcs]

/-- `log_contents_array` returns the lines. -/
theorem Intact.contents {log : LogT} {ls : List Bytes} (I : Intact log ls) :
    logContentsArray true log = some ({ lines := some ls }, log) := by
  have hcopy : (ls.map entryOf).map copyLine = ls := by
    rw [List.map_map]
    conv_rhs => rw [← List.map_id ls]
    refine List.map_congr_left fun l hl => ?_
    exact copyLine_entryOf (I.fine l hl)
  simp only [logContentsArray, Bool.true_eq_false, if_false, I.read, Option.bind_eq_bind,
    Option.bind_some, hcopy]

theorem intact_nil {log : LogT} (H : log.lines.Holds []) (hentries : log.entries = 0)
    (htotal : log.total = 0) : Intact log [] := by
  refine ⟨⟨⟨[], H, rfl⟩, ?_, by rw [htotal]; rfl⟩, by rw [hentries]; rfl⟩
  intro l hl
  exact absurd hl (by simp)

theorem dropFirst_spec {log : LogT} {l : Bytes} {ls : List Bytes} (L : Lined log (l :: ls)) :
    ∃ q t, dropFirst log = some { log with lines := q, total := t } ∧
      (ls ≠ [] → Lined { log with lines := q, total := t } ls) ∧
      (ls = [] → q.Broken ∧ t = 0) := by
  obtain ⟨cs, H, hcs⟩ := L.queue
  obtain ⟨⟨a, e⟩, cs, rfl⟩ : ∃ c cs', cs = c :: cs' := by
    cases cs with
    | nil => cases hcs
    | cons c cs' => exact ⟨c, cs', rfl⟩
  simp only [List.map_cons, List.cons.injEq] at hcs
  obtain ⟨rfl, hcs⟩ := hcs
  obtain ⟨q, hpop, _, hmore, hlast⟩ := H.pop
  have hl := L.fine l (List.mem_cons_self)
  have hwidth : (entryOf l).len.setWidth 64 = BitVec.ofNat 64 (l.length + 2) := by
    apply BitVec.eq_of_toNat_eq
    have := hl.2
    rw [BitVec.toNat_setWidth, entryOf_len hl, BitVec.toNat_ofNat]
  have htotal : log.total - (entryOf l).len.setWidth 64 = BitVec.ofNat 64 (lineBytes ls) := by
    rw [L.total, hwidth, lineBytes, List.map_cons, List.sum_cons, Nat.add_comm, BitVec.ofNat_add]
    exact BitVec.add_sub_cancel _ _
  refine ⟨q, log.total - (entryOf l).len.setWidth 64, ?_, ?_, ?_⟩
  · rw [dropFirst, hpop]
    rfl
  · intro hne
    have hcs' : cs ≠ [] := by
      rintro rfl
      exact hne (List.map_eq_nil_iff.mp hcs.symm)
    exact ⟨⟨cs, hmore hcs', hcs⟩, fun m hm => L.fine m (List.mem_cons_of_mem _ hm), htotal⟩
  · rintro rfl
    refine ⟨hlast (List.map_eq_nil_iff.mp hcs), ?_⟩
    rw [htotal]
    rfl

theorem push_spec {log : LogT} {ls : List Bytes} {text : Bytes} (L : Lined log ls) (ht : LineOk text) :
    ∃ q, log.lines.push (entryOf text) = some q ∧
      Lined { log with lines := q, total := log.total + (entryOf text).len.setWidth 64 }
        (ls ++ [text]) := by
  obtain ⟨cs, H, hcs⟩ := L.queue
  obtain ⟨q, hpush, H', _⟩ := H.push (entryOf text)
  refine ⟨q, hpush, ⟨_, H', ?_⟩, ?_, ?_⟩
  · rw [List.map_append, List.map_append, hcs]
    rfl
  · intro l hl
    rcases List.mem_append.mp hl with hl | hl
    · exact L.fine l hl
    · obtain rfl := List.mem_singleton.mp hl
      exact ht
  · have hwidth : (entryOf text).len.setWidth 64 = BitVec.ofNat 64 (text.length + 2) := by
      apply BitVec.eq_of_toNat_eq
      have := ht.2
      rw [BitVec.toNat_setWidth, entryOf_len ht, BitVec.toNat_ofNat]
    show log.total + _ = _
    rw [L.total, hwidth, ← BitVec.ofNat_add, lineBytes, lineBytes, List.map_append, List.sum_append]
    rfl

/-- `create_log_entry` on a slot that retains no lines. -/
theorem createLogEntry_unkept (o : Outcome) (log : LogT) (pre line : Bytes) {f : File}
    (hfile : log.logfile = some f) (hkeep : log.keepEntries = 0) :
    createLogEntry o log pre line = some (o.fprintf, [.fprintf f (pre ++ line ++ [lf])], log) := by
  unfold createLogEntry
  rw [Option.bind_eq_bind, bind_of_eq hfile]
  simp only [if_pos hkeep]

/-- `create_log_entry` on a slot that retains lines. -/
theorem createLogEntry_spec (o : Outcome) {log : LogT} {ls : List Bytes} {pre line : Bytes} {f : File}
    (I : Intact log ls) (hfit : ls.length ≤ log.keepEntries.toNat) (hfile : log.logfile = some f)
    (ht : LineOk (pre ++ line)) (hkeep : log.keepEntries ≠ 0) :
    ∃ q t n, createLogEntry o log pre line = some ((entryOf (pre ++ line)).len.toInt,
        [.fprintf f (pre ++ line ++ [lf])], { log with lines := q, total := t, entries := n }) ∧
      Intact { log with lines := q, total := t, entries := n }
        (keepLast log.keepEntries.toNat (ls ++ [pre ++ line])) := by
  have hlen : BitVec.ofNat 32 (pre.length + line.length + 2) = (entryOf (pre ++ line)).len := by
    rw [entryOf, List.length_append]
  have htext : cString (snprintf (entryOf (pre ++ line)).len.toNat (pre ++ line ++ [lf])) =
      pre ++ line ++ [lf] := by
    have h := entry_eq ht
    rw [← List.length_append] at hlen
    rw [hlen] at h
    rw [h, cString_entryOf ht]
  have hentry : (⟨snprintf (entryOf (pre ++ line)).len.toNat (pre ++ line ++ [lf]),
      (entryOf (pre ++ line)).len⟩ : LogEntry) = entryOf (pre ++ line) := by
    have h := entry_eq ht
    rw [← List.length_append] at hlen
    rw [hlen] at h
    rw [h]
  obtain ⟨q, hpush, L⟩ := push_spec I.toLined ht
  have hpos : log.keepEntries.toNat ≠ 0 := fun h => hkeep (BitVec.eq_of_toNat_eq h)
  have hlast : (ls ++ [pre ++ line]).length = ls.length + 1 := by simp
  unfold createLogEntry
  rw [Option.bind_eq_bind, bind_of_eq hfile]
  simp only [Option.bind_eq_bind, if_neg hkeep, hlen, htext, hentry, hpush, Option.bind_some]
  by_cases hfull : log.entries ≥ log.keepEntries
  · -- the oldest line goes
    have hcount : ls.length = log.keepEntries.toNat := by
      have : log.keepEntries.toNat ≤ log.entries.toNat := hfull
      have := I.entries
      omega
    cases ls with
    | nil => exact absurd hcount.symm hpos
    | cons l ls =>
      obtain ⟨q', t, hdrop, hmore, _⟩ := dropFirst_spec L
      have hmore := hmore (by simp)
      simp only [if_pos hfull]
      rw [hdrop]
      refine ⟨q', t, log.entries, rfl, hmore.congr rfl rfl |> fun L' => ?_⟩
      have hkept : keepLast log.keepEntries.toNat (l :: ls ++ [pre ++ line]) = ls ++ [pre ++ line] := by
        rw [keepLast, hlast, hcount, Nat.add_sub_cancel_left]
        rfl
      rw [hkept]
      refine ⟨L', ?_⟩
      show log.entries.toNat = _
      rw [I.entries]
      simp
  · -- there is room
    have hroom : ls.length < log.keepEntries.toNat := by
      have : ¬ log.keepEntries.toNat ≤ log.entries.toNat := hfull
      have := I.entries
      omega
    simp only [if_neg hfull, Option.bind_some]
    refine ⟨q, _, log.entries + 1, rfl, ?_⟩
    have hkept : keepLast log.keepEntries.toNat (ls ++ [pre ++ line]) = ls ++ [pre ++ line] := by
      rw [keepLast, hlast, Nat.sub_eq_zero_of_le hroom, List.drop_zero]
    rw [hkept]
    refine ⟨L.congr rfl rfl, ?_⟩
    show (log.entries + 1).toNat = _
    have hbound := log.keepEntries.isLt
    have hone : (1 : BitVec 32).toNat = 1 := rfl
    rw [BitVec.toNat_add, I.entries, hlast, hone, Nat.mod_eq_of_lt (by omega)]

/-- No entry can be stored once the tail has been left behind. -/
theorem createLogEntry_broken (o : Outcome) (log : LogT) (pre line : Bytes) (hkeep : log.keepEntries ≠ 0)
    (B : log.lines.Broken) : createLogEntry o log pre line = none := by
  unfold createLogEntry
  cases hfile : log.logfile with
  | none => rfl
  | some f =>
    simp only [Option.bind_eq_bind, Option.bind_some, if_neg hkeep, B.push]
    rfl

theorem entries_gt {log : LogT} {ls : List Bytes} {count : BitVec 32} (I : Intact log ls) :
    log.entries > count ↔ count.toNat < ls.length := by
  rw [← I.entries]
  exact Iff.rfl

/-- One turn of the loop that drops lines. -/
theorem trimTo_step {log : LogT} {l : Bytes} {ls : List Bytes} {count : BitVec 32} {fuel : Nat}
    (I : Intact log (l :: ls)) (hmore : count.toNat < ls.length + 1) :
    ∃ q t, trimTo count (fuel + 1) log =
        trimTo count fuel { log with lines := q, total := t, entries := log.entries - 1 } ∧
      (ls ≠ [] → Intact { log with lines := q, total := t, entries := log.entries - 1 } ls) ∧
      (ls = [] → Emptied { log with lines := q, total := t, entries := log.entries - 1 }) := by
  obtain ⟨q, t, hdrop, hrest, hlast⟩ := dropFirst_spec I.toLined
  have hgt : log.entries > count := (entries_gt I).mpr hmore
  have hcount : (log.entries - 1).toNat = ls.length := by
    have hI : log.entries.toNat = ls.length + 1 := I.entries
    have hone : (1 : BitVec 32).toNat = 1 := rfl
    rw [BitVec.toNat_sub, hone, hI]
    have := log.entries.isLt
    omega
  refine ⟨q, t, ?_, ?_, ?_⟩
  · rw [trimTo, if_pos hgt, hdrop]
    rfl
  · intro hne
    exact ⟨(hrest hne).congr rfl rfl, hcount⟩
  · rintro rfl
    obtain ⟨hbroken, htotal⟩ := hlast rfl
    exact ⟨hbroken, BitVec.eq_of_toNat_eq hcount, htotal⟩

theorem trimTo_stop {log : LogT} {count : BitVec 32} (h : ¬ log.entries > count) (fuel : Nat) :
    trimTo count fuel log = some log := by
  cases fuel <;> rw [trimTo, if_neg h]

/-- Without lines the loop does nothing. -/
theorem trimTo_nothing {log : LogT} (h : log.entries = 0) (count : BitVec 32) (fuel : Nat) :
    trimTo count fuel log = some log := by
  apply trimTo_stop
  rw [h]
  exact BitVec.not_lt_zero

/-- The loop keeps the last `count` lines, as long as it keeps any. -/
theorem trimTo_spec {log : LogT} {ls : List Bytes} {count : BitVec 32} {fuel : Nat} (I : Intact log ls)
    (hfuel : ls.length ≤ fuel) (hcount : count ≠ 0 ∨ ls = []) :
    ∃ q t n, trimTo count fuel log = some { log with lines := q, total := t, entries := n } ∧
      Intact { log with lines := q, total := t, entries := n } (keepLast count.toNat ls) := by
  -- on the fuel, which the number of lines bounds: each turn drops the oldest one
  induction fuel generalizing log ls with
  | zero =>
    obtain rfl : ls = [] := List.eq_nil_of_length_eq_zero (by omega)
    have hstop : ¬ log.entries > count := by
      rw [entries_gt I]
      exact Nat.not_lt_zero _
    refine ⟨log.lines, log.total, log.entries, trimTo_stop hstop 0, ?_⟩
    rw [keepLast, List.drop_nil]
    exact I
  | succ fuel ih =>
    by_cases hmore : count.toNat < ls.length
    · cases ls with
      | nil => exact absurd hmore (Nat.not_lt_zero _)
      | cons l ls =>
        rw [List.length_cons] at hmore hfuel
        obtain ⟨q, t, hstep, hrest, _⟩ := trimTo_step I hmore
        have hpos : count.toNat ≠ 0 := by
          rcases hcount with hc | hc
          · exact fun h => hc (BitVec.eq_of_toNat_eq h)
          · exact absurd hc (by simp)
        have hne : ls ≠ [] := by
          rintro rfl
          simp only [List.length_nil] at hmore
          omega
        obtain ⟨q', t', n', hrun, I'⟩ := ih (hrest hne) (by omega)
          (Or.inl fun h => hpos (by rw [h]; rfl))
        refine ⟨q', t', n', hstep.trans hrun, ?_⟩
        have hkept : keepLast count.toNat (l :: ls) = keepLast count.toNat ls := by
          rw [keepLast, keepLast, List.length_cons, Nat.succ_sub (by omega), List.drop_succ_cons]
        rw [hkept]
        exact I'
    · have hstop : ¬ log.entries > count := fun h => hmore ((entries_gt I).mp h)
      refine ⟨log.lines, log.total, log.entries, trimTo_stop hstop _, ?_⟩
      have hkept : keepLast count.toNat ls = ls := by
        rw [keepLast, Nat.sub_eq_zero_of_le (Nat.le_of_not_lt hmore), List.drop_zero]
      rw [hkept]
      exact I

/-- The loop that keeps nothing leaves the tail in a freed entry. -/
theorem trimTo_zero {log : LogT} {ls : List Bytes} {fuel : Nat} (I : Intact log ls)
    (hfuel : ls.length ≤ fuel) (hne : ls ≠ []) :
    ∃ q t n, trimTo 0 fuel log = some { log with lines := q, total := t, entries := n } ∧
      Emptied { log with lines := q, total := t, entries := n } := by
  induction fuel generalizing log ls with
  | zero => exact absurd (List.eq_nil_of_length_eq_zero (by omega)) hne
  | succ fuel ih =>
    cases ls with
    | nil => exact absurd rfl hne
    | cons l ls =>
      rw [List.length_cons] at hfuel
      have hmore : (0 : BitVec 32).toNat < ls.length + 1 := Nat.succ_pos _
      obtain ⟨q, t, hstep, hrest, hlast⟩ := trimTo_step I hmore
      by_cases hls : ls = []
      · have E := hlast hls
        refine ⟨q, t, log.entries - 1, hstep.trans (trimTo_stop ?_ fuel), E⟩
        rw [E.entries]
        exact BitVec.lt_irrefl 0
      · obtain ⟨q', t', n', hrun, E⟩ := ih (hrest hls) (by omega) hls
        exact ⟨q', t', n', hstep.trans hrun, E⟩

/-- Closing a log in use. -/
theorem logClose_live {log : LogT} (hlive : log.inUse = true) :
    ∃ reply, logClose log = (trimTo 0 log.entries.toNat
      { log with inUse := false, level := 2, logfile := none }).map fun log' => (reply, log') := by
  have hdead : ¬ log.inUse = false := by
    rw [hlive]
    exact Bool.noConfusion
  rw [logClose, if_neg hdead]
  exact ⟨_, rfl⟩

/-! Opening and writing. -/

/-- `_log_open` changes the file and the size only, and prints nothing. In use it fails only
when the name cannot be opened, and succeeds without a file only where there is neither file
nor name. -/
theorem logOpenSlot_spec (o : Outcome) (log : LogT) :
    ∃ ok events file size, logOpenSlot o log = (ok, events, { log with logfile := file, size := size }) ∧
      (∀ f text, Event.fprintf f text ∉ events) ∧
      (ok = false → log.inUse = true → log.filename ≠ none ∧ o.fopen = none) ∧
      (ok = true → log.inUse = true ∧ (log.filename ≠ none ∨ log.logfile ≠ none → file ≠ none)) := by
  obtain ⟨inUse, level, filename, logfile, size, trigger, archive, total, entries, keep, lines⟩ := log
  unfold logOpenSlot
  cases inUse with
  | false => exact ⟨false, [], logfile, size, rfl, by simp, by simp, by simp⟩
  | true =>
    simp only [Bool.true_eq_false, if_false]
    by_cases hopen : logfile = none ∨ trigger ≠ 0 ∧ size > trigger
    · rw [if_pos hopen]
      cases filename with
      | none =>
        refine ⟨true, [], logfile, 0, rfl, by simp, by simp, fun _ => ⟨trivial, fun h => ?_⟩⟩
        exact h.resolve_left (by simp)
      | some filename =>
        cases ho : o.fopen with
        | none =>
          cases logfile with
          | none => exact ⟨false, [.fopen filename], none, size, rfl, by simp, by simp, by simp⟩
          | some g =>
            exact ⟨false, [.fclose g, .rename filename _, .fopen filename], none, size, rfl, by simp,
              by simp, by simp⟩
        | some f =>
          cases logfile with
          | none =>
            exact ⟨true, [.fopen filename], some f, o.stat.getD 0, rfl, by simp, by simp, by simp⟩
          | some g =>
            exact ⟨true, [.fclose g, .rename filename _, .fopen filename], some f, o.stat.getD 0, rfl,
              by simp, by simp, by simp⟩
    · rw [if_neg hopen]
      refine ⟨true, [], logfile, size, rfl, by simp, by simp, fun _ => ⟨trivial, fun _ => ?_⟩⟩
      exact fun h => hopen (Or.inl h)

/-! All slots. -/

theorem update_each {Inv : LogT → Prop} {loglist : Loglist} (h : ∀ i, Inv (loglist i))
    (i : Fin logMaxlogs) {log : LogT} (hlog : Inv log) (j : Fin logMaxlogs) :
    Inv (Function.update loglist i log j) := by
  by_cases hj : j = i
  · rw [hj, Function.update_self]
    exact hlog
  · rw [Function.update_of_ne hj]
    exact h j

/-- A number names a slot or is out of range. -/
theorem slot_or_not (id : Int) :
    (∃ i : Fin logMaxlogs, id = i.val) ∨ ∀ i : Fin logMaxlogs, id ≠ i.val := by
  by_cases h : ∃ i : Fin logMaxlogs, id = i.val
  · exact Or.inl h
  · exact Or.inr fun i hi => h ⟨i, hi⟩

theorem logStep_on (i : Fin logMaxlogs) (call : SlotCall) (loglist : Loglist) :
    logStep (.on i.val call) loglist =
      (slotStep i.val call (loglist i)).map fun r => (r.1, Function.update loglist i r.2) := by
  have hi : (0 : Int) ≤ i.val ∧ (i.val : Int) < logMaxlogs := by
    have := i.isLt
    omega
  rw [logStep, dif_pos hi]
  rfl

theorem logStep_bad {id : Int} (h : ∀ i : Fin logMaxlogs, id ≠ i.val) (call : SlotCall)
    (loglist : Loglist) : logStep (.on id call) loglist = some (badId call, loglist) := by
  have hid : ¬ (0 ≤ id ∧ id < logMaxlogs) := by
    intro hid
    have hlt : id.toNat < logMaxlogs := by omega
    apply h ⟨id.toNat, hlt⟩
    show id = (id.toNat : Int)
    omega
  rw [logStep, dif_neg hid]

/-- `log_open_file` opens the first free slot, if the file is there and a slot is. -/
theorem logOpenFile_cases (file : Option File) (loglist : Loglist) :
    (∃ f i, file = some f ∧ (loglist i).inUse = false ∧
      (logOpenFile file loglist).2 = (Function.update loglist i (openSlotFile f (loglist i)), some i)) ∨
    (logOpenFile file loglist).2 = (loglist, none) := by
  cases file with
  | none => exact Or.inr rfl
  | some f =>
    cases hid : getLogId loglist with
    | none =>
      right
      simp only [logOpenFile, hid]
    | some i =>
      left
      have hfree := List.find?_some hid
      refine ⟨f, i, rfl, of_decide_eq_true hfree, ?_⟩
      simp only [logOpenFile, hid]

/-- `log_open` either leaves the slots alone or opens a free one. -/
theorem logOpen_cases (filename : Option Bytes) (o : Outcome) (loglist : Loglist) :
    (∃ name f i, filename.map cString = some name ∧ o.fopen = some f ∧ (loglist i).inUse = false ∧
      (logOpen filename o loglist).2 =
        (Function.update loglist i (openSlot f (some (name, o)) (loglist i)), some i)) ∨
    (logOpen filename o loglist).2 = (loglist, none) := by
  cases hname : filename.map cString with
  | none =>
    right
    simp only [logOpen, hname]
  | some name =>
    cases name with
    | nil =>
      right
      simp only [logOpen, hname]
    | cons c name =>
      simp only [logOpen, hname]
      rcases logOpenFile_cases o.fopen loglist with h | h
      · left
        obtain ⟨f, i, hfopen, hfree, h⟩ := h
        refine ⟨c :: name, f, i, rfl, hfopen, hfree, ?_⟩
        generalize logOpenFile o.fopen loglist = r at h
        obtain ⟨reply, r⟩ := r
        obtain rfl : r = _ := h
        simp only [Function.update_self, Function.update_idem, openSlot]
      · right
        generalize logOpenFile o.fopen loglist = r at h
        obtain ⟨reply, r⟩ := r
        obtain rfl : r = _ := h
        rfl

/-- The slot that `log_open` has opened. -/
theorem logOpen_opened {filename : Option Bytes} {o : Outcome} {loglist loglist' : Loglist} {i : Fin logMaxlogs}
    (h : (logOpen filename o loglist).2 = (loglist', some i)) :
    ∃ name f, filename.map cString = some name ∧ o.fopen = some f ∧ (loglist i).inUse = false ∧
      loglist' i = openSlot f (some (name, o)) (loglist i) := by
  rcases logOpen_cases filename o loglist with hcase | hcase
  · obtain ⟨name, f, j, hname, hfopen, hidle, hopen⟩ := hcase
    rw [h] at hopen
    obtain ⟨rfl, hj⟩ := Prod.mk.inj hopen
    obtain rfl : i = j := Option.some.inj hj
    exact ⟨name, f, hname, hfopen, hidle, Function.update_self i _ loglist⟩
  · rw [h] at hcase
    cases congrArg Prod.snd hcase

end IcecastCommon.Log
