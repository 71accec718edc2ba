import IcecastCommon.Library.Calls
import IcecastCommon.Thread.Interleaved

/- Runs of a program with threads, from `thread_initialize` on. They never touch a freed record;
   the tree has the records of the running threads in the order of their ids, `thread_self` tells
   the threads apart, and every call comes back once the threads get their turns. When all threads
   have ended `thread_shutdown` frees what is left. -/
namespace IcecastCommon.Thread
open Avl Library

/-- The events from `thread_initialize` on. -/
def runThreads (start : Start) (es : List Event) : Option (List Out × State) := do
  let s ← threadInitialize start
  runCalls step es s

/-- Every event meets the condition. -/
def RunMeets (ok : Event → State → Prop) (start : Start) (es : List Event) : Prop :=
  ∀ s, threadInitialize start = some s → Meets step ok es s

/-- The program and the system behave all along. -/
abbrev RunAllowed (start : Start) (es : List Event) : Prop := RunMeets Allowed start es

theorem RunMeets.of_check {ok : Event → State → Prop} [∀ e s, Decidable (ok e s)] {start : Start}
    {es : List Event} (h : ((threadInitialize start).map (meetsCheck step ok es)).getD false = true) :
    RunMeets ok start es := by
  intro s hs
  rw [hs] at h
  exact Meets.of_check h

/-! The start. -/

section
variable {start : Start} {thread : ThreadType} {tree : Tree}

theorem mainOnly_threads {t : Nat} {os : Os} (h : (mainOnly start thread tree).threads t = some os) :
    t = 0 ∧ os = { sys := start.sys, detached := false, joined := false, thread := 0, pc := .routine } := by
  have hthreads := Function.update_apply (fun _ : Nat => (none : Option Os)) 0
    (some { sys := start.sys, detached := false, joined := false, thread := 0, pc := .routine }) t
  by_cases ht : t = 0
  · rw [if_pos ht] at hthreads
    exact ⟨ht, (Option.some.inj (hthreads.symm.trans h)).symm⟩
  · rw [if_neg ht] at hthreads
    exact absurd (hthreads.symm.trans h) (by simp)

theorem mainOnly_records {a : Block} (h : (mainOnly start thread tree).records a ≠ none) :
    a = 0 ∧ (mainOnly start thread tree).records a = some thread := by
  have hrecords := Function.update_apply (fun _ : Block => (none : Option ThreadType)) 0 (some thread) a
  by_cases ha : a = 0
  · exact ⟨ha, hrecords.trans (if_pos ha)⟩
  · exact absurd (hrecords.trans (if_neg ha)) h

theorem mainOnly_main : (mainOnly start thread tree).threads 0 =
    some { sys := start.sys, detached := false, joined := false, thread := 0, pc := .routine } := rfl

theorem mainOnly_places : Places (mainOnly start thread tree) := by
  constructor
  case fresh =>
    intro a ha
    by_contra h
    rw [(mainOnly_records h).1] at ha
    exact absurd ha (by simp [mainOnly])
  case unborn =>
    intro t ht
    by_contra h
    obtain ⟨os, hos⟩ := Option.ne_none_iff_exists'.mp h
    rw [(mainOnly_threads hos).1] at ht
    exact absurd ht (by simp [mainOnly])
  case bound =>
    intro t os ht
    obtain ⟨rfl, rfl⟩ := mainOnly_threads ht
    exact Nat.one_pos
  case own =>
    intro t os u os' ht hu _
    rw [(mainOnly_threads ht).1, (mainOnly_threads hu).1]
  case made =>
    intro t os a ht h
    obtain ⟨rfl, rfl⟩ := mainOnly_threads ht
    exact absurd h (by simp [Pc.making])
  case apart =>
    intro t os a u os' ht h
    obtain ⟨rfl, rfl⟩ := mainOnly_threads ht
    exact absurd h (by simp [Pc.making])
  case maker =>
    intro t os a u os' ht h
    obtain ⟨rfl, rfl⟩ := mainOnly_threads ht
    exact absurd h (by simp [Pc.making])

theorem mainOnly_owned (hsys : thread.sysThread = start.sys) : Owned (mainOnly start thread tree) := by
  have hrecord : (mainOnly start thread tree).records 0 = some thread := rfl
  constructor
  case main =>
    intro os ht
    rw [(mainOnly_threads ht).2]
  case right =>
    intro t os r ht hr
    obtain ⟨rfl, rfl⟩ := mainOnly_threads ht
    cases hrecord.symm.trans hr
    exact ⟨hsys, fun h => absurd rfl h, fun h => absurd h id⟩
  case running =>
    intro t os ht _
    obtain ⟨rfl, rfl⟩ := mainOnly_threads ht
    rw [hrecord]
    simp
  case waiting => exact fun t os ht h0 => absurd (mainOnly_threads ht).1 h0
  case leaving =>
    intro t os a ht h
    obtain ⟨rfl, rfl⟩ := mainOnly_threads ht
    exact absurd h (by simp [Pc.deleting])
  case found =>
    intro t os a ht h
    obtain ⟨rfl, rfl⟩ := mainOnly_threads ht
    exact absurd h (by simp [Pc.result])

theorem mainOnly_joins : Joins (mainOnly start thread tree) := by
  constructor
  case joined =>
    intro t os ht h
    obtain ⟨rfl, rfl⟩ := mainOnly_threads ht
    exact absurd h (by simp)
  case joining =>
    intro t os a u ht h
    obtain ⟨rfl, rfl⟩ := mainOnly_threads ht
    exact absurd h (by simp [Pc.joining])
  case joiner =>
    intro t os a u t' os' a' ht h
    obtain ⟨rfl, rfl⟩ := mainOnly_threads ht
    exact absurd h (by simp [Pc.joining])
  case deleting =>
    intro t os a ht h
    obtain ⟨rfl, rfl⟩ := mainOnly_threads ht
    exact absurd h (by simp [Pc.deleting])
  case deleter =>
    intro t os a t' os' ht h
    obtain ⟨rfl, rfl⟩ := mainOnly_threads ht
    exact absurd h (by simp [Pc.deleting])

theorem mainOnly_kept : Kept (mainOnly start thread tree) := by
  constructor
  case held => exact fun a ha => ⟨0, _, mainOnly_main, Or.inl (mainOnly_records ha).1.symm⟩
  case pending =>
    intro t os ht h
    obtain ⟨rfl, rfl⟩ := mainOnly_threads ht
    exact absurd h (by simp)

theorem mainOnly_ids : Ids (mainOnly start thread tree) := by
  have hone : ∀ a r, (mainOnly start thread tree).records a = some r → a = 0 ∧ r = thread := by
    intro a r hr
    obtain ⟨ha, hthread⟩ := mainOnly_records (by rw [hr]; simp)
    exact ⟨ha, Option.some.inj (hr.symm.trans hthread)⟩
  constructor
  case bound =>
    intro a r _ hr
    rw [(hone a r hr).2]
    exact Nat.lt_succ_self _
  case distinct =>
    intro a r b r' _ _ hr hr' _
    rw [(hone a r hr).1, (hone b r' hr').1]

theorem mainOnly_named : Named (mainOnly start thread tree) := by
  constructor
  case there =>
    intro t os a ht h
    obtain ⟨rfl, rfl⟩ := mainOnly_threads ht
    exact absurd h (by simp [Pc.naming])
  case waits =>
    intro t os a u v p ht h
    obtain ⟨rfl, rfl⟩ := mainOnly_threads ht
    exact absurd h (by simp [Pc.joining])

theorem mainOnly_roles (hsys : thread.sysThread = start.sys) : Roles (mainOnly start thread tree) :=
  ⟨mainOnly_places, mainOnly_owned hsys, mainOnly_joins, mainOnly_kept, mainOnly_ids,
    fun _ _ _ _ ht hu _ _ _ => (mainOnly_threads ht).1.trans (mainOnly_threads hu).1.symm, mainOnly_named⟩

theorem mainOnly_addresses : Addresses (mainOnly start thread tree) :=
  fun _ _ ha hb _ => (mainOnly_records ha).1.trans (mainOnly_records hb).1.symm

end

/-- The record of the main thread. -/
def mainThread (start : Start) : ThreadType :=
  { threadId := 0, name := some "Main Thread".toUTF8.toList, detached := start.detached, sysThread := start.sys }

theorem threadInitialize_safe (start : Start) :
    ∃ s, threadInitialize start = some s ∧ Safe s ∧ Addresses s := by
  obtain ⟨tree, e, S, _⟩ := stores_new compareThreads
  obtain ⟨tree', e', S', _⟩ := S.insert compareThreads_totalPreorder (some ⟨0, 0⟩)
  have hthreads : ∀ t os, (mainOnly start (mainThread start) tree').threads t = some os → _ :=
    fun t os => mainOnly_threads
  refine ⟨mainOnly start (mainThread start) tree', ?_, ⟨⟨mainOnly_roles rfl, tree', [⟨0, 0⟩], rfl, S',
    List.nodup_singleton _, fun p => ?_⟩, fun t => ?_⟩, mainOnly_addresses⟩
  · simp only [threadInitialize, e, Option.bind_eq_bind, Option.bind_some, e']
    rfl
  · rw [List.mem_singleton]
    constructor
    · intro h
      subst h
      exact ⟨0, _, mainThread start, mainOnly_main, id, rfl, rfl, rfl⟩
    · intro h
      obtain ⟨t, os, r, ht, _, hthread, hr, hid⟩ := h
      obtain ⟨rfl, rfl⟩ := hthreads t os ht
      obtain ⟨pa, pi⟩ := p
      cases hthread
      cases hr
      cases hid
      rfl
  · refine ⟨fun h => absurd h (by simp [mainOnly]), fun h => ?_⟩
    obtain ⟨os, ht, hholds⟩ := h
    obtain ⟨rfl, rfl⟩ := hthreads t os ht
    exact absurd hholds id

/-! A run. -/

/-- The invariant, and what `thread_self` gave every caller. -/
structure RunKept (trace : List (Event × Out)) (s : State) : Prop where
  safe : Safe s
  addresses : Addresses s
  told : ∀ t answer th, (Event.turn t answer, Out.self th) ∈ trace →
    ∃ os, s.threads t = some os ∧ th = some os.thread

theorem run_keeps : Keeps step (fun trace e out => trace ++ [(e, out)]) RunKept Allowed := by
  intro trace e s hok K
  obtain ⟨out, s', he, T⟩ := step_keeps K.safe hok
  refine ⟨out, s', he, T.safe, step_addresses K.safe.core.roles.places K.addresses hok he, fun t answer th h => ?_⟩
  have hold : ∃ os, s.threads t = some os ∧ th = some os.thread := by
    rcases List.mem_append.mp h with h | h
    · exact K.told t answer th h
    · cases List.mem_singleton.mp h
      exact T.found th rfl
  obtain ⟨os, ht, hth⟩ := hold
  obtain ⟨os', ht', hthread⟩ := T.stays t os ht
  exact ⟨os', ht', by rw [hth, hthread]⟩

theorem runThreads_spec {start : Start} {es : List Event} (h : RunAllowed start es) :
    ∃ outs s, runThreads start es = some (outs, s) ∧ RunKept (es.zip outs) s := by
  obtain ⟨s₀, e, S, A⟩ := threadInitialize_safe start
  have K : RunKept [] s₀ := ⟨S, A, fun _ _ _ h => absurd h List.not_mem_nil⟩
  obtain ⟨outs, s, hr, K'⟩ := run_keeps.run K (h s₀ e)
  rw [history_zip, List.nil_append] at K'
  exact ⟨outs, s, by rw [runThreads, e]; exact hr, K'⟩

/-- A thread takes turns one after the other. -/
def turns (t n : Nat) : List Event := List.replicate n (.turn t { created := none, named := true, mem := true })

/-- A thread goes through `thread_create` up to `pthread_create`, where it starts another one. -/
def spawns (t : Nat) (detached : Bool) (address : Nat) (sys : Pthread) : List Event :=
  .call t (.create [97] detached (some address)) :: turns t 4 ++
    [.turn t { created := some sys, named := true, mem := true }]

/-- A thread starts another one, which comes to its routine. The first name is not taken. -/
def starts (t : Nat) (detached : Bool) (address : Nat) (sys : Pthread) (new : Nat) : List Event :=
  spawns t detached address sys ++ .turn t { created := none, named := false, mem := true } :: turns t 1 ++ turns new 4

/-- What the system gives to the main thread of the runs below. -/
def firstThread : Start := { sys := 7, address := 100, detached := true }

/-- A thread is started, asks for its record while the main thread does, ends and is joined. The next one is
detached; it gets the identifier and the address of the first one, asks for its record and ends. -/
def joinRun : List Event :=
  starts 0 false 200 8 1 ++ .call 1 .self :: turns 1 2 ++ .call 0 .self :: turns 0 1 ++ turns 1 2 ++ turns 0 4 ++
    .call 1 .finish :: .call 0 (.join (some 1)) :: turns 0 5 ++
    starts 0 true 200 8 2 ++ .call 2 .self :: turns 2 4 ++ .call 2 .finish :: turns 2 4

theorem joinRun_allowed : RunAllowed firstThread joinRun := RunMeets.of_check (by decide +kernel)

/-- No access faults, and the tree has the records of the threads that have started and are not taken
out, in the order of their ids, which are all different. -/
theorem threadtree_of_run {start : Start} {es : List Event} (h : RunAllowed start es) :
    ∃ outs s tree, ∃ ps : List ThreadPtr, runThreads start es = some (outs, s) ∧ s.threadtree = some tree ∧
      Stores compareThreads tree (ps.map some) ∧ ps.Pairwise (fun p q => p.threadId < q.threadId) ∧
      ∀ p, p ∈ ps ↔ Registered s p := by
  obtain ⟨outs, s, hr, K⟩ := runThreads_spec h
  obtain ⟨tree, ps, G⟩ := K.safe.core.registry
  refine ⟨outs, s, tree, ps, hr, G.root, G.stores, ?_, G.listed⟩
  have hordered := List.pairwise_map.mp G.stores.ordered
  refine (hordered.and G.nodup).imp_of_mem fun {p q} hp hq hpq => ?_
  have hle : p.threadId ≤ q.threadId := by
    have hcmp := hpq.1
    simp only [NotAfter, compareThreads, Option.map_some, Option.getD_some] at hcmp
    grind
  exact Nat.lt_of_le_of_ne hle fun hid => hpq.2 (G.eq_of_id K.safe.core.roles.ids hp hq hid)

theorem threadtree_of_joinRun : ∃ outs s tree, ∃ ps : List ThreadPtr, runThreads firstThread joinRun = some (outs, s) ∧
    s.threadtree = some tree ∧ Stores compareThreads tree (ps.map some) ∧
    ps.Pairwise (fun p q => p.threadId < q.threadId) ∧ ∀ p, p ∈ ps ↔ Registered s p :=
  threadtree_of_run joinRun_allowed

/-! The conditions on the program. A run that breaks one of them may fault, whatever the system does to keep
its promises. -/

/-- A thread is joined, and before its record is taken out a new thread has its identifier. The new
thread renames itself, and what it writes to is the record that the join frees. -/
def reuseRun : List Event :=
  starts 0 false 200 8 1 ++ starts 0 false 300 9 2 ++ .call 1 .finish :: .call 0 (.join (some 1)) :: turns 0 1 ++
    starts 2 true 400 8 3 ++ .call 3 (.rename [97]) :: turns 3 3 ++ turns 0 2 ++ turns 3 1

theorem reuseRun_faults :
    RunMeets (fun e s => Promised e s ∧ Supplied e s ∧ JoinsOnce e s ∧ EndsLate e s) firstThread reuseRun ∧
      runThreads firstThread reuseRun = none :=
  ⟨RunMeets.of_check (by decide +kernel), Option.isNone_iff_eq_none.mp (by decide +kernel)⟩

/-- A detached thread ends before `thread_create` reads its record to name it. -/
def hurriedRun : List Event := spawns 0 true 200 8 ++ turns 1 4 ++ .call 1 .finish :: turns 1 4 ++ turns 0 1

theorem hurriedRun_faults :
    RunMeets (fun e s => Promised e s ∧ Supplied e s ∧ JoinsOnce e s ∧ StartsApart e s) firstThread hurriedRun ∧
      runThreads firstThread hurriedRun = none :=
  ⟨RunMeets.of_check (by decide +kernel), Option.isNone_iff_eq_none.mp (by decide +kernel)⟩

/-- `thread_self` gives a thread the record it was started with, and as long as two of these records are
allocated they lie at one address only when one thread asked for both. -/
theorem thread_self_of_run {start : Start} {es : List Event} (h : RunAllowed start es) :
    ∃ outs s, runThreads start es = some (outs, s) ∧
      (∀ t answer th, (.turn t answer, .self th) ∈ es.zip outs →
        ∃ os, s.threads t = some os ∧ th = some os.thread) ∧
      ∀ t answer a u answer' b, (.turn t answer, .self (some a)) ∈ es.zip outs →
        (.turn u answer', .self (some b)) ∈ es.zip outs → s.records a ≠ none → s.records b ≠ none →
        (s.address a = s.address b ↔ t = u) := by
  obtain ⟨outs, s, hr, K⟩ := runThreads_spec h
  refine ⟨outs, s, hr, K.told, fun t answer a u answer' b ht hu ha hb => ?_⟩
  obtain ⟨os, hos, ha'⟩ := K.told t answer (some a) ht
  obtain ⟨os', hos', hb'⟩ := K.told u answer' (some b) hu
  cases ha'
  cases hb'
  constructor
  · intro hsame
    exact K.safe.core.roles.places.own t os u os' hos hos' (K.addresses _ _ ha hb hsame)
  · intro hsame
    subst hsame
    rw [Option.some.inj (hos.symm.trans hos')]

theorem thread_self_of_joinRun : ∃ outs s, runThreads firstThread joinRun = some (outs, s) ∧
    (∀ t answer th, (.turn t answer, .self th) ∈ joinRun.zip outs →
      ∃ os, s.threads t = some os ∧ th = some os.thread) ∧
    ∀ t answer a u answer' b, (.turn t answer, .self (some a)) ∈ joinRun.zip outs →
      (.turn u answer', .self (some b)) ∈ joinRun.zip outs → s.records a ≠ none → s.records b ≠ none →
      (s.address a = s.address b ↔ t = u) :=
  thread_self_of_run joinRun_allowed

/-! The calls come back. -/

/-- A turn, not a call of the program. -/
def Event.IsTurn : Event → Prop
  | .turn _ _ => True
  | .call _ _ => False

instance : (e : Event) → Decidable e.IsTurn
  | .turn _ _ => inferInstanceAs (Decidable True)
  | .call _ _ => inferInstanceAs (Decidable False)

/-- The program makes no call, and every thread takes a turn. -/
def Round (es : List Event) (s : State) : Prop :=
  (∀ t < s.count, ∃ e ∈ es, e.thread = t) ∧ Meets step (fun e s => e.IsTurn ∧ Allowed e s) es s

instance (es : List Event) (s : State) : Decidable (Round es s) :=
  inferInstanceAs (Decidable ((∀ t < s.count, ∃ e ∈ es, e.thread = t) ∧
    Meets step (fun e s => e.IsTurn ∧ Allowed e s) es s))

/-- No call is under way, but for a `thread_join` of a thread that has not ended. -/
def Settled (s : State) : Prop :=
  ∀ t os, s.threads t = some os → os.pc = .routine ∨ os.pc = .ended ∨
    ∃ th u other, os.pc = .join th u ∧ s.threads u = some other ∧ other.pc ≠ .ended

theorem Settled.waits {s : State} (h : Settled s) {t : Nat} {os : Os} (ht : s.threads t = some os) :
    Waits s os.pc := by
  rcases h t os ht with hpc | hpc | ⟨th, u, other, hpc, hu, hended⟩
  · rw [hpc]
    trivial
  · rw [hpc]
    trivial
  · rw [hpc]
    exact ⟨other, hu, hended⟩

/-- When all threads wait nobody has the mutex, so nobody waits for it. -/
theorem Safe.settled {s : State} (S : Safe s) (h : ∀ t os, s.threads t = some os → Waits s os.pc) : Settled s := by
  intro t os ht
  have hwaits := h t os ht
  cases hpc : os.pc with
  | routine => exact Or.inl rfl
  | ended => exact Or.inr (Or.inl rfl)
  | join th u =>
    rw [hpc] at hwaits
    obtain ⟨other, hu, hended⟩ := hwaits
    exact Or.inr (Or.inr ⟨th, u, other, rfl, hu, hended⟩)
  | lock b =>
    rw [hpc] at hwaits
    obtain ⟨u, howner⟩ := Option.ne_none_iff_exists'.mp hwaits
    obtain ⟨owner, hu, hholds⟩ := (S.excl u).mp howner
    have howner' := h u owner hu
    generalize owner.pc = pc at hholds howner'
    cases pc <;> exact absurd howner' (by simp_all [Waits, Pc.Holds])
  | inside b | unlock b found | back b found | spawn th | setname th again =>
    rw [hpc] at hwaits
    exact absurd hwaits id

/-- A turn of a thread that waits changes nothing, and every other turn lowers the work that is left. -/
theorem step_works {s s' : State} (P : Places s) {e : Event} (he : e.IsTurn) {out : Out}
    (h : step e s = some (out, s')) :
    (∀ os, s.threads e.thread = some os → Waits s os.pc) ∧ s' = s ∨ s'.work < s.work := by
  cases e with
  | call t c => exact absurd he id
  | turn t answer =>
    rw [step] at h
    cases ht : s.threads t with
    | none =>
      rw [ht] at h
      cases h
      exact Or.inl ⟨fun os hos => absurd (ht.symm.trans hos) (by simp), rfl⟩
    | some os =>
      rw [ht] at h
      refine (turn_works P ht h).imp (fun hwaits => ⟨fun os' ht' => ?_, hwaits.2⟩) Works.work
      cases ht.symm.trans ht'
      exact hwaits.1

theorem Settled.stays {s s' : State} (S : Settled s) {e : Event} (he : e.IsTurn) {out : Out}
    (h : step e s = some (out, s')) : s' = s := by
  cases e with
  | call t c => exact absurd he id
  | turn t answer =>
    rw [step] at h
    cases ht : s.threads t with
    | none =>
      rw [ht] at h
      cases h
      rfl
    | some os =>
      rw [ht] at h
      exact turn_waits (S.waits ht) h

/-- One thread at a time is inside the mutex. When the program makes no further calls, more than eleven
rounds for every thread bring all calls to their end. -/
theorem calls_of_run {start : Start} {es : List Event} (h : RunAllowed start es) :
    ∃ outs s, runThreads start es = some (outs, s) ∧
      (∀ t u os os', s.threads t = some os → s.threads u = some os' → os.pc.Holds → os'.pc.Holds → t = u) ∧
      ∀ rounds, Meets (runCalls step) Round rounds s → 11 * s.count < rounds.length →
        ∃ outs' s', runCalls (runCalls step) rounds s = some (outs', s') ∧ Settled s' := by
  obtain ⟨outs, s, hr, K⟩ := runThreads_spec h
  refine ⟨outs, s, hr, fun t u os os' ht hu hos hos' => K.safe.excl.unique ht hos hu hos',
    fun rounds hmeets hlength => ?_⟩
  have hkeeps : Keeps step (fun trace e out => trace ++ [(e, out)]) RunKept fun e s => e.IsTurn ∧ Allowed e s :=
    fun trace e s hok => run_keeps trace e s hok.2
  have hlow : s.work < rounds.length := Nat.lt_of_le_of_lt s.work_le hlength
  refine hkeeps.settles (fun es s => ∀ t < s.count, ∃ e ∈ es, e.thread = t)
    (fun trace e s out s' K hok he => ?_) (fun trace is s K hfull hsame => ?_)
    (fun e s out s' S hok he => S.stays hok.1 he) K hmeets (Or.inr hlow)
  · exact (step_works K.safe.core.roles.places hok.1 he).imp_left And.right
  · refine K.safe.settled fun t os ht => ?_
    obtain ⟨e, hmem, rfl⟩ := hfull t (K.safe.core.roles.places.lt_count ht)
    obtain ⟨hok, out, he⟩ := hsame e hmem
    exact ((step_works K.safe.core.roles.places hok.1 he).resolve_right (Nat.lt_irrefl _)).1 os ht

/-- The main thread comes to start a second thread while the first one, inside the mutex, asks for its
record. -/
def busyRun : List Event :=
  starts 0 false 200 8 1 ++ .call 1 .self :: turns 1 1 ++ [.call 0 (.create [98] true (some 300))]

/-- A turn of each of three threads. -/
def everyTurn : List Event := [0, 1, 2].map fun t => .turn t { created := some 9, named := true, mem := true }

theorem calls_of_busyRun : ∃ outs s outs' s', runThreads firstThread busyRun = some (outs, s) ∧
    runCalls (runCalls step) (List.replicate 23 everyTurn) s = some (outs', s') ∧ Settled s' := by
  obtain ⟨outs, s, hr, _, hrounds⟩ := calls_of_run (RunMeets.of_check (by decide +kernel) : RunAllowed firstThread busyRun)
  have hmeets : ((runThreads firstThread busyRun).map fun r =>
      meetsCheck (runCalls step) Round (List.replicate 23 everyTurn) r.2 &&
        decide (11 * r.2.count < 23)).getD false = true := by
    decide +kernel
  rw [hr, Option.map_some, Option.getD_some, Bool.and_eq_true, decide_eq_true_eq] at hmeets
  obtain ⟨outs', s', hr', hsettled⟩ := hrounds _ (Meets.of_check hmeets.1) (by rw [List.length_replicate]; exact hmeets.2)
  exact ⟨outs, s, outs', s', hr, hr', hsettled⟩

/-- The record of a thread that has ended: freed at once when it was created detached, kept until it is
joined otherwise. -/
theorem records_of_run {start : Start} {es : List Event} (h : RunAllowed start es) :
    ∃ outs s, runThreads start es = some (outs, s) ∧
      (∀ a, s.records a ≠ none → ∃ t os, s.threads t = some os ∧ (os.thread = a ∨ os.pc.making = some a)) ∧
      ∀ t os, s.threads t = some os → (¬ os.pc.Gone → s.records os.thread ≠ none) ∧
        (t ≠ 0 → os.pc = .ended → (os.detached = true → s.records os.thread = none) ∧
          (os.detached = false → os.joined = false → s.records os.thread ≠ none) ∧
          (os.joined = true → (∀ u p, s.threads u = some p → p.pc.deleting ≠ some (os.thread, false)) →
            s.records os.thread = none)) := by
  obtain ⟨outs, s, hr, K⟩ := runThreads_spec h
  have R := K.safe.core.roles
  refine ⟨outs, s, hr, R.kept.held, fun t os ht => ⟨R.owned.running t os ht,
    fun ht0 hended => ⟨fun hdet => ?_, R.owned.waiting t os ht ht0, fun hjoined hnobody => ?_⟩⟩⟩
  · by_contra hsome
    obtain ⟨r, hrec⟩ := Option.ne_none_iff_exists'.mp hsome
    obtain ⟨_, hdet', hgone⟩ := R.owned.right t os r ht hrec
    have hfalse := hgone (by rw [hended]; trivial)
    rw [hdet' ht0, hdet] at hfalse
    exact absurd hfalse (by simp)
  · by_contra hsome
    obtain ⟨u, p, hu, hp⟩ := R.kept.pending t os ht hjoined hsome
    exact hnobody u p hu hp

theorem records_of_joinRun : ∃ outs s, runThreads firstThread joinRun = some (outs, s) ∧
    (∀ a, s.records a ≠ none → ∃ t os, s.threads t = some os ∧ (os.thread = a ∨ os.pc.making = some a)) ∧
    ∀ t os, s.threads t = some os → (¬ os.pc.Gone → s.records os.thread ≠ none) ∧
      (t ≠ 0 → os.pc = .ended → (os.detached = true → s.records os.thread = none) ∧
        (os.detached = false → os.joined = false → s.records os.thread ≠ none) ∧
        (os.joined = true → (∀ u p, s.threads u = some p → p.pc.deleting ≠ some (os.thread, false)) →
          s.records os.thread = none)) :=
  records_of_run joinRun_allowed

/-- All threads but the main one have ended, and were detached or have been joined. -/
def AllEnded (s : State) : Prop :=
  ∀ t < s.count, ∀ os ∈ s.threads t,
    if t = 0 then os.pc = .routine else os.pc = .ended ∧ (os.detached = true ∨ os.joined = true)

instance (s : State) : Decidable (AllEnded s) :=
  inferInstanceAs (Decidable (∀ t < s.count, ∀ os ∈ s.threads t,
    if t = 0 then os.pc = .routine else os.pc = .ended ∧ (os.detached = true ∨ os.joined = true)))

/-- When all the others have ended, the record of the main thread is the only one. -/
theorem AllEnded.only_main {s : State} (hall : AllEnded s) (S : Safe s) {a : Block} (ha : s.records a ≠ none) :
    ∃ os, s.threads 0 = some os ∧ os.pc = .routine ∧ os.thread = a := by
  have R := S.core.roles
  have hidle : ∀ u p, s.threads u = some p → p.pc.making = none ∧ p.pc.deleting = none := by
    intro u p hu
    have hp := hall u (R.places.lt_count hu) p hu
    by_cases hu0 : u = 0
    · rw [if_pos hu0] at hp
      rw [hp]
      exact ⟨rfl, rfl⟩
    · rw [if_neg hu0] at hp
      rw [hp.1]
      exact ⟨rfl, rfl⟩
  obtain ⟨t, os, ht, hos⟩ := R.kept.held a ha
  have hown := hos.resolve_right (by rw [(hidle t os ht).1]; simp)
  subst hown
  have hend := hall t (R.places.lt_count ht) os ht
  by_cases ht0 : t = 0
  · rw [if_pos ht0] at hend
    exact ⟨os, ht0 ▸ ht, hend, rfl⟩
  · rw [if_neg ht0] at hend
    obtain ⟨hended, hdone⟩ := hend
    obtain ⟨r, hr⟩ := Option.ne_none_iff_exists'.mp ha
    obtain ⟨_, hdet, hgone⟩ := R.owned.right t os r ht hr
    rcases hdone with hd | hj
    · have hfalse := hgone (by rw [hended]; trivial)
      rw [hdet ht0, hd] at hfalse
      exact absurd hfalse (by simp)
    · obtain ⟨u, p, hu, hp⟩ := R.kept.pending t os ht hj ha
      rw [(hidle u p hu).2] at hp
      exact absurd hp (by simp)

/-- After such a run `thread_shutdown` leaves no record. -/
theorem shutdown_of_run {start : Start} {es : List Event} (h : RunAllowed start es)
    {outs : List Out} {s : State} (hr : runThreads start es = some (outs, s)) (hall : AllEnded s) :
    ∃ s', threadShutdown s = some s' ∧ s'.threadtree = none ∧ ∀ a, s'.records a = none := by
  obtain ⟨outs', s', hr', K⟩ := runThreads_spec h
  cases hr.symm.trans hr'
  have S := K.safe
  obtain ⟨tree, ps, G⟩ := S.core.registry
  have hmain : ∀ p ∈ ps, ∃ os, s.threads 0 = some os ∧ os.thread = p.block ∧ ∃ r, s.records p.block = some r ∧
      r.threadId = p.threadId := by
    intro p hp
    obtain ⟨_, _, r, _, _, _, hrec, hid⟩ := (G.listed p).mp hp
    obtain ⟨os, ht, _, hthread⟩ := hall.only_main S (by rw [hrec]; exact Option.some_ne_none r)
    exact ⟨os, ht, hthread, r, hrec, hid⟩
  have hsame : ∀ p ∈ ps, ∀ q ∈ ps, p = q := by
    intro p hp q hq
    obtain ⟨os, ht, hpa, r, hrec, hid⟩ := hmain p hp
    obtain ⟨os', ht', hqa, r', hrec', hid'⟩ := hmain q hq
    cases ht.symm.trans ht'
    have hblock := hpa.symm.trans hqa
    rw [hblock] at hrec
    cases hrec.symm.trans hrec'
    obtain ⟨pa, pi⟩ := p
    obtain ⟨qa, qi⟩ := q
    cases hblock
    cases hid
    cases hid'
    rfl
  have hlisted : ∀ a, s.records a ≠ none → ∃ p ∈ ps, p.block = a := by
    intro a ha
    obtain ⟨os, ht, hpc, rfl⟩ := hall.only_main S ha
    obtain ⟨r, hrec⟩ := Option.ne_none_iff_exists'.mp ha
    exact ⟨⟨os.thread, r.threadId⟩, (G.listed _).mpr ⟨0, os, r, ht, by rw [hpc]; exact id, rfl, hrec, rfl⟩, rfl⟩
  have hshort : ps = [] ∨ ∃ p, ps = [p] := by
    cases ps with
    | nil => exact Or.inl rfl
    | cons p qs =>
      cases qs with
      | nil => exact Or.inr ⟨p, rfl⟩
      | cons q rs =>
        obtain rfl := hsame p List.mem_cons_self q (List.mem_cons_of_mem p List.mem_cons_self)
        exact absurd G.nodup (by simp)
  obtain ⟨h, hfree⟩ := G.stores.free fun hdvd => by
    rcases hshort with rfl | ⟨p, rfl⟩
    · rfl
    · exact absurd (Nat.le_of_dvd Nat.one_pos hdvd) (by norm_num)
  rw [threadShutdown, G.root]
  simp only [Option.bind_eq_bind, Option.bind_some, hfree, List.drop_left]
  rcases hshort with rfl | ⟨p, rfl⟩
  · refine ⟨_, rfl, rfl, fun a => ?_⟩
    by_contra ha
    obtain ⟨p, hp, _⟩ := hlisted a ha
    exact absurd hp List.not_mem_nil
  · obtain ⟨os, ht, hthread, r, hrec, _⟩ := hmain p List.mem_cons_self
    simp only [List.map_cons, List.map_nil, freeThreads, State.free, hrec, Option.bind_eq_bind, Option.bind_some]
    refine ⟨_, rfl, rfl, fun a => ?_⟩
    by_cases ha : a = p.block
    · rw [ha]
      exact Function.update_self _ _ _
    · refine (Function.update_of_ne ha none s.records).trans ?_
      by_contra hsome
      obtain ⟨q, hq, hblock⟩ := hlisted a hsome
      rw [List.mem_singleton.mp hq] at hblock
      exact ha hblock.symm

theorem shutdown_of_joinRun : ∃ outs s s', runThreads firstThread joinRun = some (outs, s) ∧
    threadShutdown s = some s' ∧ s'.threadtree = none ∧ ∀ a, s'.records a = none := by
  obtain ⟨outs, s, hr, _⟩ := runThreads_spec joinRun_allowed
  have hall : ((runThreads firstThread joinRun).map fun r => decide (AllEnded r.2)).getD false = true := by
    decide +kernel
  rw [hr] at hall
  obtain ⟨s', hs'⟩ := shutdown_of_run joinRun_allowed hr (of_decide_eq_true hall)
  exact ⟨outs, s, s', hr, hs'⟩

end IcecastCommon.Thread
