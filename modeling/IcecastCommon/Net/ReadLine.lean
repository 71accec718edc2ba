import IcecastCommon.Encoding.State
import IcecastCommon.Library.Calls
import Mathlib.Data.List.TakeWhile
import Mathlib.Logic.Function.Basic

/- Reading lines from a socket. The loop of `sock_read_line` reads one byte ahead and stops at a
   line feed, at a full buffer or at the end of the stream. A full buffer leaves no room for the
   NUL, and the byte that was read ahead is gone. -/
namespace IcecastCommon.Net
open Encoding (Bytes nul cr lf)
open Library (runCalls)

/-- What `recv` still has: the bytes it delivers one by one, and whether it fails behind the last
    of them or reports the end of the stream. -/
structure Incoming where
  bytes : Bytes
  failed : Bool
deriving DecidableEq, Repr

/-- What `recv` returns when there are no bytes left. -/
def Incoming.ending (sock : Incoming) : Int :=
  if sock.failed then -1 else 0

/-- The memory from `buff` on. -/
abbrev Memory := Nat → UInt8

/-- The memory after stores of bytes at indices, in this order. -/
def stored : List (UInt8 × Nat) → Memory → Memory
  | [], buff => buff
  | (c, i) :: stores, buff => stored stores (Function.update buff i c)

/-- Where the loop leaves `read_bytes`, `pos` and the stream, and what it has stored. -/
structure Scan where
  read_bytes : Int
  pos : Nat
  bytes : Bytes
  stores : List (UInt8 × Nat)
deriving DecidableEq, Repr

/-- `while ((c != '\n') && (pos < len) && (read_bytes == 1))`, entered with a byte read. -/
def readLoop (len ending : Int) (bytes : Bytes) (c : UInt8) (pos : Nat) (stores : List (UInt8 × Nat)) : Scan :=
  if c ≠ lf ∧ (pos : Int) < len then
    let pos' := if c ≠ cr then pos + 1 else pos
    let stores' := if c ≠ cr then stores ++ [(c, pos)] else stores
    match bytes with
    | [] => ⟨ending, pos', [], stores'⟩
    | next :: rest => readLoop len ending rest next pos' stores'
  else ⟨1, pos, bytes, stores⟩

/-- A call: its result, the stream it leaves and its stores into `buff`. -/
structure LineCall where
  ret : Int
  sock : Incoming
  stores : List (UInt8 × Nat)
deriving DecidableEq, Repr

/-- `sock_read_line`. A first `recv` without a byte makes it return 0 whether it fails or not. -/
def sockReadLine (sock : Incoming) (buff : Option Memory) (len : Int) : LineCall :=
  if buff.isNone then ⟨0, sock, []⟩
  else if len ≤ 0 then ⟨0, sock, []⟩
  else match sock.bytes with
    | [] => ⟨0, sock, []⟩
    | c :: rest =>
      let scan := readLoop len sock.ending rest c 0 []
      let sock := { sock with bytes := scan.bytes }
      if scan.read_bytes = 1 then ⟨1, sock, scan.stores ++ [(nul, scan.pos)]⟩
      else ⟨0, sock, scan.stores⟩

/-! The line at the front of the stream. -/

/-- The bytes before the first line feed. -/
def frontLine (bytes : Bytes) : Bytes :=
  bytes.takeWhile (· ≠ lf)

/-- The bytes behind the first line feed. -/
def behindLine (bytes : Bytes) : Bytes :=
  (bytes.dropWhile (· ≠ lf)).tail

/-- The bytes that a line keeps. -/
def withoutCr (bytes : Bytes) : Bytes :=
  bytes.filter (· ≠ cr)

/-- Fewer than `len` bytes other than CR come before the first line feed. The very last byte of the
    stream does not count: behind it, nothing is read ahead. -/
def Roomy (len : Int) (bytes : Bytes) : Prop :=
  ((withoutCr (frontLine bytes.dropLast)).length : Int) < len

instance (len : Int) (bytes : Bytes) : Decidable (Roomy len bytes) := by
  unfold Roomy
  infer_instance

theorem frontLine_cons {c : UInt8} (h : c ≠ lf) (bytes : Bytes) :
    frontLine (c :: bytes) = c :: frontLine bytes := by
  simp [frontLine, h]

theorem frontLine_lf (bytes : Bytes) : frontLine (lf :: bytes) = [] := by
  simp [frontLine]

theorem behindLine_cons {c : UInt8} (h : c ≠ lf) (bytes : Bytes) :
    behindLine (c :: bytes) = behindLine bytes := by
  simp [behindLine, h]

theorem behindLine_lf (bytes : Bytes) : behindLine (lf :: bytes) = bytes := by
  simp [behindLine]

/-- A stream with a line feed is its first line, the line feed and the rest. -/
theorem frontLine_append {bytes : Bytes} (h : lf ∈ bytes) :
    bytes = frontLine bytes ++ lf :: behindLine bytes := by
  induction bytes with
  | nil => simp at h
  | cons c bytes ih =>
    by_cases hc : c = lf
    · rw [hc, frontLine_lf, behindLine_lf, List.nil_append]
    · rw [frontLine_cons hc, behindLine_cons hc, List.cons_append]
      apply congrArg (c :: ·)
      apply ih
      simpa [Ne.symm hc] using h

/-! The loop. -/

/-- The position and the stores after one more byte of the line. -/
theorem readLoop_step {len : Int} {c : UInt8} {pos : Nat} (hc : c ≠ lf) (hpos : (pos : Int) < len)
    (ending : Int) (next : UInt8) (rest : Bytes) (stores : List (UInt8 × Nat)) :
    readLoop len ending (next :: rest) c pos stores =
      readLoop len ending rest next (pos + (withoutCr [c]).length)
        (stores ++ (withoutCr [c]).zipIdx pos) := by
  rw [readLoop, if_pos ⟨hc, hpos⟩]
  by_cases hcr : c = cr
  · simp [withoutCr, hcr]
  · simp [withoutCr, hcr]

theorem readLoop_last {len : Int} {c : UInt8} {pos : Nat} (hc : c ≠ lf) (hpos : (pos : Int) < len)
    (ending : Int) (stores : List (UInt8 × Nat)) :
    readLoop len ending [] c pos stores =
      ⟨ending, pos + (withoutCr [c]).length, [], stores ++ (withoutCr [c]).zipIdx pos⟩ := by
  rw [readLoop, if_pos ⟨hc, hpos⟩]
  by_cases hcr : c = cr
  · simp [withoutCr, hcr]
  · simp [withoutCr, hcr]

theorem readLoop_lf (len ending : Int) (bytes : Bytes) (pos : Nat) (stores : List (UInt8 × Nat)) :
    readLoop len ending bytes lf pos stores = ⟨1, pos, bytes, stores⟩ := by
  rw [readLoop.eq_def, if_neg fun h => h.1 rfl]

theorem readLoop_full {len : Int} {pos : Nat} (h : len ≤ pos) (ending : Int) (bytes : Bytes) (c : UInt8)
    (stores : List (UInt8 × Nat)) :
    readLoop len ending bytes c pos stores = ⟨1, pos, bytes, stores⟩ := by
  rw [readLoop.eq_def, if_neg fun hlt => absurd hlt.2 (by omega)]

/-- The line with a byte in front of it, and its place in the buffer. -/
theorem withoutCr_append (c : UInt8) (bytes : Bytes) :
    withoutCr (c :: bytes) = withoutCr [c] ++ withoutCr bytes := by
  rw [withoutCr, withoutCr, withoutCr, ← List.filter_append, List.singleton_append]

/-- Room for a line is room for what is behind its first byte. -/
theorem roomy_cons {len : Int} {c next : UInt8} (hc : c ≠ lf) (rest : Bytes) :
    Roomy len (c :: next :: rest) ↔ Roomy (len - (withoutCr [c]).length) (next :: rest) := by
  unfold Roomy
  rw [List.dropLast_cons_of_ne_nil (List.cons_ne_nil next rest), frontLine_cons hc, withoutCr_append,
    List.length_append]
  omega

theorem roomy_pos {len : Int} {bytes : Bytes} (h : Roomy len bytes) : 0 < len := by
  unfold Roomy at h
  omega

/-- With room for the line the loop takes it whole. -/
theorem readLoop_roomy {len ending : Int} {bytes : Bytes} {c : UInt8} {pos : Nat}
    {stores : List (UInt8 × Nat)} (hroom : Roomy (len - pos) (c :: bytes)) :
    readLoop len ending bytes c pos stores =
      { read_bytes := if lf ∈ c :: bytes then 1 else ending
        pos := pos + (withoutCr (frontLine (c :: bytes))).length
        bytes := behindLine (c :: bytes)
        stores := stores ++ (withoutCr (frontLine (c :: bytes))).zipIdx pos } := by
  have hpos := roomy_pos hroom
  induction bytes generalizing c pos stores with
  | nil =>
    by_cases hc : c = lf
    · subst hc
      rw [readLoop_lf, frontLine_lf, behindLine_lf, if_pos List.mem_cons_self]
      simp [withoutCr]
    · have hend : lf ∉ [c] := by simpa using Ne.symm hc
      rw [readLoop_last hc (by omega), frontLine_cons hc, behindLine_cons hc, if_neg hend]
      rfl
  | cons next rest ih =>
    by_cases hc : c = lf
    · subst hc
      rw [readLoop_lf, frontLine_lf, behindLine_lf, if_pos List.mem_cons_self]
      simp [withoutCr]
    · have hroom' := (roomy_cons hc rest).1 hroom
      have hmem : lf ∈ c :: next :: rest ↔ lf ∈ next :: rest := by simp [Ne.symm hc]
      rw [readLoop_step hc (by omega), ih (by convert hroom' using 1; omega)
        (by have := roomy_pos hroom'; omega), frontLine_cons hc, behindLine_cons hc,
        withoutCr_append c (frontLine _), List.length_append, List.zipIdx_append, List.append_assoc,
        Nat.add_assoc, if_congr hmem rfl rfl]

/-- Without room it stops with a byte read ahead and the position behind the buffer. -/
theorem readLoop_overfull {len ending : Int} {bytes : Bytes} {c : UInt8} {pos : Nat}
    {stores : List (UInt8 × Nat)} (hpos : (pos : Int) ≤ len) (hroom : ¬Roomy (len - pos) (c :: bytes)) :
    (readLoop len ending bytes c pos stores).read_bytes = 1 ∧
      ((readLoop len ending bytes c pos stores).pos : Int) = len := by
  induction bytes generalizing c pos stores with
  | nil =>
    have hfull : len ≤ pos := by
      unfold Roomy at hroom
      simp [frontLine, withoutCr] at hroom
      omega
    rw [readLoop_full hfull]
    refine ⟨rfl, ?_⟩
    dsimp only
    omega
  | cons next rest ih =>
    by_cases hfull : len ≤ pos
    · rw [readLoop_full hfull]
      refine ⟨rfl, ?_⟩
      dsimp only
      omega
    · by_cases hc : c = lf
      · subst hc
        apply absurd _ hroom
        unfold Roomy
        rw [List.dropLast_cons_of_ne_nil (List.cons_ne_nil next rest), frontLine_lf]
        simp [withoutCr]
        omega
      · have hone : (withoutCr [c]).length ≤ 1 := List.length_filter_le _ _
        rw [readLoop_step hc (by omega)]
        apply ih (by omega)
        intro hroom'
        apply hroom
        rw [roomy_cons hc]
        convert hroom' using 1
        omega

/-! A call. -/

theorem stored_append (xs ys : List (UInt8 × Nat)) (buff : Memory) :
    stored (xs ++ ys) buff = stored ys (stored xs buff) := by
  induction xs generalizing buff with
  | nil => rfl
  | cons x xs ih =>
    rw [List.cons_append, stored, stored]
    exact ih _

/-- A string stored from an index on, and nothing below it. -/
theorem stored_zipIdx (text : Bytes) (k : Nat) (buff : Memory) :
    (∀ i, i < k → stored (text.zipIdx k) buff i = buff i) ∧
      (List.range text.length).map (fun i => stored (text.zipIdx k) buff (k + i)) = text := by
  induction text generalizing k buff with
  | nil => exact ⟨fun i _ => rfl, rfl⟩
  | cons c text ih =>
    obtain ⟨hbelow, hat⟩ := ih (k + 1) (Function.update buff k c)
    rw [List.zipIdx_cons, stored]
    constructor
    · intro i hi
      rw [hbelow i (by omega), Function.update_of_ne (by omega)]
    · have hfirst : stored (text.zipIdx (k + 1)) (Function.update buff k c) (k + 0) = c :=
        (hbelow k (by omega)).trans (Function.update_self ..)
      rw [List.length_cons, List.range_succ_eq_map, List.map_cons, List.map_map, hfirst]
      apply congrArg (c :: ·)
      calc (List.range text.length).map
            ((fun i => stored (text.zipIdx (k + 1)) (Function.update buff k c) (k + i)) ∘ Nat.succ)
          = (List.range text.length).map
              fun i => stored (text.zipIdx (k + 1)) (Function.update buff k c) (k + 1 + i) := by
            apply List.map_congr_left
            intro i _
            exact congrArg (stored (text.zipIdx (k + 1)) (Function.update buff k c)) (Nat.succ_add_eq_add_succ k i).symm
        _ = text := hat

/-- The NUL-terminated string in the first `len` bytes. -/
def stringIn (len : Int) (buff : Memory) : Bytes :=
  ((List.range len.toNat).map buff).takeWhile (· ≠ nul)

/-- A NUL-free string is read back. -/
theorem stringIn_stored {len : Int} {text : Bytes} (hlen : (text.length : Int) < len) (hnul : nul ∉ text)
    (buff : Memory) :
    stringIn len (stored (text.zipIdx 0 ++ [(nul, text.length)]) buff) = text := by
  obtain ⟨rest, hrest⟩ : ∃ rest, len.toNat = text.length + (rest + 1) :=
    ⟨len.toNat - text.length - 1, by omega⟩
  have htext : (List.range text.length).map
      (Function.update (stored (text.zipIdx 0) buff) text.length nul) = text := by
    calc (List.range text.length).map (Function.update (stored (text.zipIdx 0) buff) text.length nul)
        = (List.range text.length).map fun i => stored (text.zipIdx 0) buff (0 + i) := by
          apply List.map_congr_left
          intro i hi
          rw [Function.update_of_ne (Nat.ne_of_lt (List.mem_range.1 hi)), Nat.zero_add]
      _ = text := (stored_zipIdx text 0 buff).2
  have hkept : ∀ c ∈ text, decide (c ≠ nul) = true := by
    intro c hc
    exact decide_eq_true fun heq => hnul (heq ▸ hc)
  rw [stringIn, stored_append, stored, stored, hrest, List.range_add, List.map_append, htext,
    List.takeWhile_append_of_pos hkept, List.range_succ_eq_map, List.map_cons, List.map_cons,
    Nat.add_zero, Function.update_self, List.takeWhile_cons_of_neg (by simp), List.append_nil]

theorem stored_last (text : Bytes) (buff : Memory) :
    stored (text.zipIdx 0 ++ [(nul, text.length)]) buff text.length = nul := by
  rw [stored_append, stored, stored, Function.update_self]

/-- What a call with room for the line does. -/
structure TakesLine (len : Int) (bytes : Bytes) (call : LineCall) (buff : Memory) : Prop where
  behind : call.sock.bytes = behindLine bytes
  inside : ∀ store ∈ call.stores, (store.2 : Int) < len
  line : call.ret = 1 → lf ∈ bytes ∧ (∃ p : Nat, (p : Int) < len ∧ buff p = nul) ∧
    stringIn len buff = withoutCr (frontLine bytes)

theorem frontLine_dropLast {bytes : Bytes} (h : lf ∈ bytes) : frontLine bytes.dropLast = frontLine bytes := by
  induction bytes with
  | nil => rfl
  | cons c bytes ih =>
    cases bytes with
    | nil =>
      have hc : c = lf := (List.mem_singleton.1 h).symm
      rw [hc, frontLine_lf]
      rfl
    | cons next rest =>
      rw [List.dropLast_cons_of_ne_nil (List.cons_ne_nil next rest)]
      by_cases hc : c = lf
      · rw [hc, frontLine_lf, frontLine_lf]
      · rw [frontLine_cons hc, frontLine_cons hc, ih (by simpa [Ne.symm hc] using h)]

/-- At the end of the stream the last byte may just fit. -/
theorem line_length_le {len : Int} {bytes : Bytes} (hroom : Roomy len bytes) :
    ((withoutCr (frontLine bytes)).length : Int) ≤ len := by
  have hpos := roomy_pos hroom
  cases hbytes : bytes.reverse with
  | nil =>
    rw [List.reverse_eq_nil_iff.1 hbytes]
    exact Int.le_of_lt hpos
  | cons c rest =>
    have hlast : bytes = rest.reverse ++ [c] := by
      rw [← List.reverse_cons, ← hbytes, List.reverse_reverse]
    unfold Roomy at hroom
    rw [hlast, List.dropLast_concat] at hroom
    rw [hlast, frontLine, List.takeWhile_append]
    split
    · next hwhole =>
      have hsame : frontLine rest.reverse = rest.reverse := (List.takeWhile_prefix _).eq_of_length hwhole
      have hone : (withoutCr (List.takeWhile (· ≠ lf) [c])).length ≤ 1 :=
        Nat.le_trans (List.length_filter_le _ _) (List.takeWhile_prefix _).length_le
      rw [hsame] at hroom
      rw [withoutCr, List.filter_append, List.length_append]
      unfold withoutCr at hroom hone
      omega
    · exact Int.le_of_lt hroom

theorem zipIdx_below {text : Bytes} {store : UInt8 × Nat} (h : store ∈ text.zipIdx 0) :
    store.2 < text.length := by
  obtain ⟨c, i⟩ := store
  simpa using (List.mem_zipIdx h).2.1

theorem ending_ne (sock : Incoming) : sock.ending ≠ 1 := by
  unfold Incoming.ending
  split <;> decide

theorem takesLine {sock : Incoming} {len : Int} (hnul : nul ∉ sock.bytes) (hroom : Roomy len sock.bytes)
    (buff : Memory) :
    TakesLine len sock.bytes (sockReadLine sock (some buff) len)
      (stored (sockReadLine sock (some buff) len).stores buff) := by
  have hlen := roomy_pos hroom
  rw [sockReadLine, if_neg (by simp), if_neg (by omega)]
  cases hbytes : sock.bytes with
  | nil => exact ⟨hbytes, by simp, by simp⟩
  | cons c rest =>
    rw [hbytes] at hroom hnul
    have hscan := @readLoop_roomy len sock.ending rest c 0 [] (by simpa using hroom)
    rw [Nat.zero_add, List.nil_append] at hscan
    dsimp only
    rw [hscan]
    by_cases hlf : lf ∈ c :: rest
    · have hshort : ((withoutCr (frontLine (c :: rest))).length : Int) < len := by
        rw [← frontLine_dropLast hlf]
        exact hroom
      have hclean : nul ∉ withoutCr (frontLine (c :: rest)) := by
        intro hmem
        exact hnul ((List.takeWhile_sublist _).subset (List.mem_of_mem_filter hmem))
      rw [if_pos hlf, if_pos rfl]
      refine ⟨rfl, ?_, fun _ => ⟨hlf, ⟨_, hshort, stored_last _ buff⟩, stringIn_stored hshort hclean buff⟩⟩
      intro store hstore
      rcases List.mem_append.1 hstore with htext | hend
      · have := zipIdx_below htext
        omega
      · rw [List.mem_singleton.1 hend]
        exact hshort
    · have hfits := line_length_le hroom
      rw [if_neg hlf, if_neg (ending_ne sock)]
      refine ⟨rfl, ?_, fun hret => absurd hret Int.zero_ne_one⟩
      intro store hstore
      have := zipIdx_below hstore
      omega

/-- A call without room for the line stores its NUL behind the buffer. -/
theorem sockReadLine_overfull {sock : Incoming} {len : Int} (hlen : 1 ≤ len)
    (hroom : ¬Roomy len sock.bytes) (buff : Memory) :
    ∃ store ∈ (sockReadLine sock (some buff) len).stores, (store.2 : Int) = len := by
  rw [sockReadLine, if_neg (by simp), if_neg (by omega)]
  cases hbytes : sock.bytes with
  | nil =>
    apply absurd _ hroom
    rw [hbytes]
    exact hlen
  | cons c rest =>
    rw [hbytes] at hroom
    obtain ⟨hread, hpos⟩ := @readLoop_overfull len sock.ending rest c 0 []
      (by simpa using Int.le_of_lt hlen) (by simpa using hroom)
    dsimp only
    rw [if_pos hread]
    exact ⟨_, List.mem_append_right _ (List.mem_singleton_self _), hpos⟩

/-! Successive calls. -/

/-- A call as a step on the stream. It gives the call and the memory behind it. -/
def lineStep (len : Int) (buff : Memory) (sock : Incoming) : Option ((LineCall × Memory) × Incoming) :=
  let call := sockReadLine sock (some buff) len
  some ((call, stored call.stores buff), call.sock)

theorem lineStep_tracks (len : Int) :
    Library.Tracks (lineStep len) (fun (_ : Unit) _ _ => ()) (fun _ _ => True) (fun _ _ => True) fun _ => True :=
  fun _ _ _ _ _ => ⟨_, _, rfl, trivial, trivial⟩

/-- What is wanted of calls that take the stream from `bytes` to `rest`. -/
structure ReadsLines (len : Int) (bytes : Bytes) (calls : List (LineCall × Memory))
    (rest : Bytes) : Prop where
  inside : ∀ call ∈ calls, ∀ store ∈ call.1.stores, (store.2 : Int) < len
  terminated : ∀ call ∈ calls, call.1.ret = 1 → ∃ p : Nat, (p : Int) < len ∧ call.2 p = nul
  kept : (∀ call ∈ calls, call.1.ret = 1) → ∃ consumed, bytes = consumed ++ rest ∧
    (calls.map fun call => stringIn len call.2).flatten = consumed.filter fun c => c ≠ cr ∧ c ≠ lf

/-- The stream behind `n` lines. -/
def behindLines (bytes : Bytes) : Nat → Bytes
  | 0 => bytes
  | n + 1 => behindLines (behindLine bytes) n

theorem behindLine_subset (bytes : Bytes) : behindLine bytes ⊆ bytes := fun _ hc =>
  (List.dropWhile_suffix _).subset (List.mem_of_mem_tail hc)

theorem withoutCr_frontLine (bytes : Bytes) :
    withoutCr (frontLine bytes) = (frontLine bytes).filter fun c => c ≠ cr ∧ c ≠ lf := by
  apply List.filter_congr
  intro c hc
  have hne : c ≠ lf := by simpa using List.mem_takeWhile_imp hc
  simp [hne]

/-- The calls that find room for their lines. -/
theorem readsLines_of_roomy {len : Int} {buffs : List Memory} {sock sock' : Incoming}
    {calls : List (LineCall × Memory)} (hnul : nul ∉ sock.bytes) (hroom : ∀ n, n < buffs.length → Roomy len (behindLines sock.bytes n))
    (hrun : runCalls (lineStep len) buffs sock = some (calls, sock')) :
    ReadsLines len sock.bytes calls sock'.bytes := by
  induction buffs generalizing sock calls with
  | nil =>
    cases hrun
    exact ⟨by simp, by simp, fun _ => ⟨[], by simp⟩⟩
  | cons buff buffs ih =>
    obtain ⟨call, next, calls', hstep, hrest, rfl⟩ := Library.runCalls_cons_inv hrun
    cases hstep
    have htakes := takesLine hnul (hroom 0 (by simp)) buff
    have hnul' : nul ∉ (sockReadLine sock (some buff) len).sock.bytes := by
      rw [htakes.behind]
      exact fun hmem => hnul (behindLine_subset _ hmem)
    have hih := ih hnul' (by
      intro n hn
      rw [htakes.behind]
      exact hroom (n + 1) (Nat.succ_lt_succ hn)) hrest
    refine ⟨?_, ?_, ?_⟩
    · intro c hc
      rcases List.mem_cons.1 hc with rfl | hc
      · exact htakes.inside
      · exact hih.inside c hc
    · intro c hc hret
      rcases List.mem_cons.1 hc with rfl | hc
      · exact (htakes.line hret).2.1
      · exact hih.terminated c hc hret
    · intro hret
      obtain ⟨hlf, -, htext⟩ := htakes.line (hret _ List.mem_cons_self)
      obtain ⟨consumed, hbytes, htexts⟩ := hih.kept fun c hc => hret c (List.mem_cons_of_mem _ hc)
      refine ⟨frontLine sock.bytes ++ lf :: consumed, ?_, ?_⟩
      · rw [List.append_assoc, List.cons_append, ← hbytes, htakes.behind]
        exact frontLine_append hlf
      · rw [List.map_cons, List.flatten_cons, htext, htexts, withoutCr_frontLine, List.filter_append]
        simp

/-- Calls that keep to the buffer find room for their lines. -/
theorem roomy_of_inside {len : Int} (hlen : 1 ≤ len) {buffs : List Memory} {sock sock' : Incoming}
    {calls : List (LineCall × Memory)} (hnul : nul ∉ sock.bytes)
    (hrun : runCalls (lineStep len) buffs sock = some (calls, sock'))
    (hinside : ∀ call ∈ calls, ∀ store ∈ call.1.stores, (store.2 : Int) < len) :
    ∀ n, n < buffs.length → Roomy len (behindLines sock.bytes n) := by
  induction buffs generalizing sock calls with
  | nil => intro n hn; cases hn
  | cons buff buffs ih =>
    obtain ⟨call, next, calls', hstep, hrest, rfl⟩ := Library.runCalls_cons_inv hrun
    cases hstep
    have hfirst : Roomy len sock.bytes := by
      by_contra hroom
      obtain ⟨store, hstore, heq⟩ := sockReadLine_overfull hlen hroom buff
      exact absurd (hinside _ List.mem_cons_self store hstore) (by omega)
    have htakes := takesLine hnul hfirst buff
    have hnul' : nul ∉ (sockReadLine sock (some buff) len).sock.bytes := by
      rw [htakes.behind]
      exact fun hmem => hnul (behindLine_subset _ hmem)
    have hih := ih hnul' hrest fun c hc => hinside c (List.mem_cons_of_mem _ hc)
    rw [htakes.behind] at hih
    intro n hn
    cases n with
    | zero => exact hfirst
    | succ n => exact hih n (Nat.lt_of_succ_lt_succ hn)

/-- Lines are read within the buffer, terminated and without a loss where each of them leaves room
    for the NUL. -/
theorem lines_read (sock : Incoming) (len : Int) (buffs : List Memory) (hnul : nul ∉ sock.bytes)
    (hlen : 1 ≤ len) :
    (∀ calls sock', runCalls (lineStep len) buffs sock = some (calls, sock') →
      ReadsLines len sock.bytes calls sock'.bytes) ↔
    ∀ n, n < buffs.length → Roomy len (behindLines sock.bytes n) := by
  constructor
  · intro hreads
    obtain ⟨calls, sock', hrun, -⟩ := (lineStep_tracks len).run buffs (fun _ _ => trivial) (h := ())
      (s := sock) trivial
    exact roomy_of_inside hlen hnul hrun (hreads calls sock' hrun).inside
  · intro hroom calls sock' hrun
    exact readsLines_of_roomy hnul hroom hrun

/-- Two lines of two bytes in a buffer of three. -/
theorem lines_read_two :
    (∀ calls sock', runCalls (lineStep 3) [fun _ => nul, fun _ => nul]
        ⟨[97, 98, cr, lf, 99, 100, lf], false⟩ = some (calls, sock') →
      ReadsLines 3 [97, 98, cr, lf, 99, 100, lf] calls sock'.bytes) ∧
    ∀ n, n < 2 → Roomy 3 (behindLines [97, 98, cr, lf, 99, 100, lf] n) := by
  have hroomy : ∀ n, n < 2 → Roomy 3 (behindLines [97, 98, cr, lf, 99, 100, lf] n) := by decide
  exact ⟨(lines_read ⟨[97, 98, cr, lf, 99, 100, lf], false⟩ 3 [fun _ => nul, fun _ => nul] (by decide)
    (by decide)).2 hroomy, hroomy⟩

/-- Of a line of four bytes in a buffer of three the last one is lost. -/
theorem line_cut :
    ¬∀ calls sock', runCalls (lineStep 3) [fun _ => nul, fun _ => nul] ⟨[97, 98, 99, 100, lf], false⟩ =
        some (calls, sock') →
      ReadsLines 3 [97, 98, 99, 100, lf] calls sock'.bytes := by
  intro hreads
  obtain ⟨consumed, hbytes, htexts⟩ := (hreads _ _ rfl).kept (by decide)
  have hall : consumed ++ [] = [97, 98, 99, 100, lf] := hbytes.symm
  rw [List.append_nil] at hall
  rw [hall] at htexts
  exact absurd htexts (by decide)

end IcecastCommon.Net
