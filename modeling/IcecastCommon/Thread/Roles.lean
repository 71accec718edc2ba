import IcecastCommon.Library.Lock
import IcecastCommon.Thread.Registry

/- What every record of the thread tree is there for. A record is made by one thread, belongs to
   the thread started with it, and is deleted by that thread or by the one that joins it. -/
namespace IcecastCommon.Thread
open Avl Library

namespace Pc

/-- Inside the mutex. -/
def Holds : Pc → Prop
  | .inside _ => True
  | .unlock _ _ => True
  | _ => False

/-- At `pthread_create`. -/
def spawns : Pc → Bool
  | .spawn _ => true
  | _ => false

/-- About to take an id. -/
def numbers : Pc → Bool
  | .inside (.nextId _ _ _) => true
  | _ => false

/-- The record that the thread makes for a new thread. -/
def making : Pc → Option Block
  | .lock (.nextId th _ _) => some th
  | .inside (.nextId th _ _) => some th
  | .unlock (.nextId th _ _) _ => some th
  | .back (.nextId th _ _) _ => some th
  | .spawn th => some th
  | _ => none

/-- That record, once it has its id. -/
def numbering : Pc → Option Block
  | .unlock (.nextId th _ _) _ => some th
  | .back (.nextId th _ _) _ => some th
  | .spawn th => some th
  | _ => none

/-- Not in the tree yet. -/
def Starting : Pc → Prop
  | .lock .insert => True
  | .inside .insert => True
  | _ => False

/-- Past the code that takes the thread's own record out. -/
def Gone : Pc → Prop
  | .ended => True
  | .unlock (.delete _ true) _ => True
  | .back (.delete _ true) _ => True
  | _ => False

/-- The record that the thread is going to delete, its own or that of a joined thread. -/
def deleting : Pc → Option (Block × Bool)
  | .lock (.delete th leaving) => some (th, leaving)
  | .inside (.delete th leaving) => some (th, leaving)
  | _ => none

/-- The thread that it waits for. -/
def joining : Pc → Option (Block × Nat)
  | .join th target => some (th, target)
  | _ => none

/-- The record that the thread reads to name the thread it has started. -/
def naming : Pc → Option Block
  | .setname th _ => some th
  | _ => none

/-- On the way out, by the end of its routine or by `thread_exit`. -/
def Leaving : Pc → Prop
  | .lock (.scan .exit) => True
  | .inside (.scan .exit) => True
  | .unlock (.scan .exit) _ => True
  | .back (.scan .exit) _ => True
  | .lock (.delete _ true) => True
  | .inside (.delete _ true) => True
  | .unlock (.delete _ true) _ => True
  | .back (.delete _ true) _ => True
  | .ended => True
  | _ => False

/-- What the search found. -/
def result : Pc → Option (Option Block)
  | .unlock (.scan _) found => some found
  | .back (.scan _) found => some found
  | _ => none

theorem leaving_of_gone {pc : Pc} (h : pc.Gone) : pc.Leaving := by
  cases pc with
  | ended => trivial
  | unlock b found | back b found =>
    cases b with
    | delete th leaving =>
      cases leaving with
      | true => trivial
      | false => exact absurd h id
    | _ => exact absurd h id
  | _ => exact absurd h id

theorem making_of_numbering {pc : Pc} {a : Block} (h : pc.numbering = some a) : pc.making = some a := by
  cases pc with
  | spawn th => exact h
  | unlock b found | back b found =>
    cases b with
    | nextId th name detached => exact h
    | insert => exact absurd h (by simp [numbering])
    | scan after => exact absurd h (by simp [numbering])
    | delete th leaving => exact absurd h (by simp [numbering])
  | _ => exact absurd h (by simp [numbering])

end Pc

/-- The record has an id of its own. -/
def Numbered (s : State) (a : Block) : Prop :=
  ∃ t os, s.threads t = some os ∧ (os.thread = a ∨ os.pc.numbering = some a)

/-- The system keeps the identifier of the thread, or the program its record. -/
def Known (s : State) (os : Os) : Prop := os.InUse ∨ s.records os.thread ≠ none

/-- A record is being made by one thread, or belongs to one. -/
structure Places (s : State) : Prop where
  fresh : ∀ a, s.next ≤ a → s.records a = none
  unborn : ∀ t, s.count ≤ t → s.threads t = none
  bound : ∀ t os, s.threads t = some os → os.thread < s.next
  own : ∀ t os u os', s.threads t = some os → s.threads u = some os' → os.thread = os'.thread → t = u
  made : ∀ t os a, s.threads t = some os → os.pc.making = some a → s.records a ≠ none
  apart : ∀ t os a u os', s.threads t = some os → os.pc.making = some a → s.threads u = some os' →
    os'.thread ≠ a
  maker : ∀ t os a u os', s.threads t = some os → os.pc.making = some a → s.threads u = some os' →
    os'.pc.making = some a → t = u

/-- A thread has its record until it, or the thread that joined it, deletes it. -/
structure Owned (s : State) : Prop where
  main : ∀ os, s.threads 0 = some os → os.detached = false
  right : ∀ t os r, s.threads t = some os → s.records os.thread = some r →
    r.sysThread = os.sys ∧ (t ≠ 0 → r.detached = os.detached) ∧ (os.pc.Gone → r.detached = false)
  running : ∀ t os, s.threads t = some os → ¬ os.pc.Gone → s.records os.thread ≠ none
  waiting : ∀ t os, s.threads t = some os → t ≠ 0 → os.detached = false → os.joined = false →
    s.records os.thread ≠ none
  leaving : ∀ t os a, s.threads t = some os → os.pc.deleting = some (a, true) →
    a = os.thread ∧ ∀ r, s.records a = some r → r.detached = true
  found : ∀ t os a, s.threads t = some os → os.pc.result = some a → a = some os.thread

/-- A thread is joined by one thread, which then deletes its record. -/
structure Joins (s : State) : Prop where
  joined : ∀ t os, s.threads t = some os → os.joined = true → os.pc = .ended ∧ t ≠ 0 ∧ os.detached = false
  joining : ∀ t os a u, s.threads t = some os → os.pc.joining = some (a, u) → s.threads u ≠ none ∧ u ≠ 0 ∧
    ∀ os', s.threads u = some os' → os'.thread = a ∧ os'.detached = false ∧ os'.joined = false
  joiner : ∀ t os a u t' os' a', s.threads t = some os → os.pc.joining = some (a, u) →
    s.threads t' = some os' → os'.pc.joining = some (a', u) → t = t'
  deleting : ∀ t os a, s.threads t = some os → os.pc.deleting = some (a, false) → s.records a ≠ none ∧
    ∀ u os', s.threads u = some os' → os'.pc.making ≠ some a ∧ (os'.thread = a → os'.joined = true)
  deleter : ∀ t os a t' os', s.threads t = some os → os.pc.deleting = some (a, false) →
    s.threads t' = some os' → os'.pc.deleting = some (a, false) → t = t'

/-- Somebody is left to free every record. -/
structure Kept (s : State) : Prop where
  held : ∀ a, s.records a ≠ none → ∃ t os, s.threads t = some os ∧ (os.thread = a ∨ os.pc.making = some a)
  pending : ∀ t os, s.threads t = some os → os.joined = true → s.records os.thread ≠ none →
    ∃ u os', s.threads u = some os' ∧ os'.pc.deleting = some (os.thread, false)

/-- No two records have one id. -/
structure Ids (s : State) : Prop where
  bound : ∀ a r, Numbered s a → s.records a = some r → r.threadId < s.nextThreadId
  distinct : ∀ a r b r', Numbered s a → Numbered s b → s.records a = some r → s.records b = some r' →
    r.threadId = r'.threadId → a = b

/-- No two known threads have one identifier. -/
def Identifiers (s : State) : Prop :=
  ∀ t os u os', s.threads t = some os → s.threads u = some os' → Known s os → Known s os' →
    os.sys = os'.sys → t = u

/-- A thread that is being named is there, and so is its record. -/
structure Named (s : State) : Prop where
  there : ∀ t os a, s.threads t = some os → os.pc.naming = some a → ∃ u p, s.threads u = some p ∧
    u ≠ 0 ∧ p.thread = a ∧ p.joined = false ∧ (p.detached = true → ¬ p.pc.Leaving)
  waits : ∀ t os a u v p, s.threads t = some os → os.pc.joining = some (a, u) → s.threads v = some p →
    p.pc.naming ≠ some a

structure Roles (s : State) : Prop where
  places : Places s
  owned : Owned s
  joins : Joins s
  kept : Kept s
  ids : Ids s
  identifiers : Identifiers s
  named : Named s

namespace State

theorem set_threads (s : State) (t : Nat) (os : Os) (u : Nat) :
    (s.set t os).threads u = if u = t then some os else s.threads u :=
  Function.update_apply s.threads t (some os) u

theorem goto_threads (s : State) (t : Nat) (os : Os) (pc : Pc) (u : Nat) :
    (s.goto t os pc).threads u = if u = t then some { os with pc := pc } else s.threads u :=
  s.set_threads t _ u

/-- What a thread was before another one, or it, moved. -/
theorem before_move {s s' : State} {t u : Nat} {os p : Os} {pc : Pc}
    (hmove : ∀ u, s'.threads u = if u = t then some { os with pc := pc } else s.threads u)
    (hu : s'.threads u = some p) : u = t ∧ p = { os with pc := pc } ∨ u ≠ t ∧ s.threads u = some p := by
  rw [hmove] at hu
  by_cases hut : u = t
  · rw [if_pos hut] at hu
    exact Or.inl ⟨hut, (Option.some.inj hu).symm⟩
  · rw [if_neg hut] at hu
    exact Or.inr ⟨hut, hu⟩

theorem before_goto {s : State} {t u : Nat} {os p : Os} {pc : Pc} (hu : (s.goto t os pc).threads u = some p) :
    u = t ∧ p = { os with pc := pc } ∨ u ≠ t ∧ s.threads u = some p :=
  before_move (s.goto_threads t os pc) hu

theorem exists_set {s : State} {t : Nat} {os os' : Os} {P : Os → Prop} (ht : s.threads t = some os)
    (h : ∃ u p, s.threads u = some p ∧ P p) (hP : P os → P os') :
    ∃ u p, (s.set t os').threads u = some p ∧ P p := by
  obtain ⟨u, p, hu, hp⟩ := h
  by_cases hut : u = t
  · subst hut
    cases ht.symm.trans hu
    exact ⟨u, os', by rw [s.set_threads, if_pos rfl], hP hp⟩
  · exact ⟨u, p, by rw [s.set_threads, if_neg hut, hu], hp⟩

end State

/-- The id of a record that no other record has. -/
def NewId (s : State) (a : Block) : Prop :=
  ∀ r, s.records a = some r → r.threadId < s.nextThreadId ∧
    ∀ b r', Numbered s b → s.records b = some r' → r'.threadId = r.threadId → a = b

/-- Nobody is naming the thread of the record. -/
def Unnamed (s : State) (a : Block) : Prop := ∀ v p, s.threads v = some p → p.pc.naming ≠ some a

/-- A thread that was created attached, has the record, and that nobody joins or names. -/
structure Joinable (s : State) (a : Block) (u : Nat) : Prop where
  exists_thread : s.threads u ≠ none
  notMain : u ≠ 0
  attached : ∀ os, s.threads u = some os → os.thread = a ∧ os.detached = false ∧ os.joined = false
  nobody : ∀ v p b, s.threads v = some p → p.pc.joining ≠ some (b, u)
  unnamed : Unnamed s a

/-- A thread that moves and keeps its roles. It may come to join another one, or to delete its own
record. -/
structure Moves (s : State) (os : Os) (pc : Pc) : Prop where
  making : pc.making = os.pc.making
  numbering : ∀ a, pc.numbering = some a → os.pc.numbering = some a ∨ NewId s a
  joining : pc.joining = os.pc.joining ∨ ∃ a u, pc.joining = some (a, u) ∧ Joinable s a u
  deleting : pc.deleting = os.pc.deleting ∨ os.pc.deleting = none ∧ pc.deleting = some (os.thread, true) ∧
    ∀ r, s.records os.thread = some r → r.detached = true
  ended : os.pc = .ended → pc = .ended
  gone : os.pc.Gone → pc.Gone
  left : pc.Gone → ∀ r, s.records os.thread = some r → r.detached = false
  found : ∀ a, pc.result = some a → a = some os.thread
  naming : ∀ a, pc.naming = some a → os.pc.naming = some a
  leaving : pc.Leaving → os.pc.Leaving ∨ (os.detached = true → Unnamed s os.thread)

section
variable {s : State} {t : Nat} {os : Os} {pc : Pc}

theorem Places.lt_count (P : Places s) (ht : s.threads t = some os) : t < s.count := by
  by_contra h
  rw [P.unborn t (Nat.le_of_not_lt h)] at ht
  exact absurd ht (by simp)

/-- The thread as it was before the move: the same one, that makes the same record. -/
theorem Moves.was (M : Moves s os pc) (ht : s.threads t = some os) {u : Nat} {p : Os}
    (hu : (s.goto t os pc).threads u = some p) :
    ∃ q, s.threads u = some q ∧ q.thread = p.thread ∧ q.pc.making = p.pc.making ∧ q.detached = p.detached ∧
      q.joined = p.joined := by
  rcases State.before_goto hu with h | h
  · obtain ⟨rfl, rfl⟩ := h
    exact ⟨os, ht, rfl, M.making.symm, rfl, rfl⟩
  · exact ⟨p, h.2, rfl, rfl, rfl, rfl⟩

theorem Places.goto (P : Places s) (ht : s.threads t = some os) (M : Moves s os pc) : Places (s.goto t os pc) := by
  constructor
  case fresh => exact P.fresh
  case unborn =>
    intro u hu
    have hne : u ≠ t := fun h => absurd (P.lt_count ht) (Nat.not_lt.mpr (h ▸ hu))
    rw [s.goto_threads, if_neg hne]
    exact P.unborn u hu
  case bound =>
    intro u p hu
    obtain ⟨q, hq, hthread, _⟩ := M.was ht hu
    rw [← hthread]
    exact P.bound u q hq
  case own =>
    intro u p v q hu hv hsame
    obtain ⟨p', hp, hthread, _⟩ := M.was ht hu
    obtain ⟨q', hq, hthread', _⟩ := M.was ht hv
    exact P.own u p' v q' hp hq (by rw [hthread, hthread', hsame])
  case made =>
    intro u p a hu ha
    obtain ⟨q, hq, _, hmaking, _⟩ := M.was ht hu
    exact P.made u q a hq (hmaking.trans ha)
  case apart =>
    intro u p a v q hu ha hv
    obtain ⟨p', hp, _, hmaking, _⟩ := M.was ht hu
    obtain ⟨q', hq, hthread, _⟩ := M.was ht hv
    rw [← hthread]
    exact P.apart u p' a v q' hp (hmaking.trans ha) hq
  case maker =>
    intro u p a v q hu ha hv ha'
    obtain ⟨p', hp, _, hmaking, _⟩ := M.was ht hu
    obtain ⟨q', hq, _, hmaking', _⟩ := M.was ht hv
    exact P.maker u p' a v q' hp (hmaking.trans ha) hq (hmaking'.trans ha')

theorem Owned.goto (W : Owned s) (ht : s.threads t = some os) (M : Moves s os pc) : Owned (s.goto t os pc) := by
  constructor
  case main =>
    intro p hp
    rcases State.before_goto hp with h | h
    · obtain ⟨rfl, rfl⟩ := h
      exact W.main os ht
    · exact W.main p h.2
  case right =>
    intro u p r hu hr
    rcases State.before_goto hu with h | h
    · obtain ⟨rfl, rfl⟩ := h
      obtain ⟨hsys, hdet, _⟩ := W.right u os r ht hr
      exact ⟨hsys, hdet, fun hgone => M.left hgone r hr⟩
    · exact W.right u p r h.2 hr
  case running =>
    intro u p hu hgone
    rcases State.before_goto hu with h | h
    · obtain ⟨rfl, rfl⟩ := h
      exact W.running u os ht fun h => hgone (M.gone h)
    · exact W.running u p h.2 hgone
  case waiting =>
    intro u p hu hu0 hdet hjoined
    rcases State.before_goto hu with h | h
    · obtain ⟨rfl, rfl⟩ := h
      exact W.waiting u os ht hu0 hdet hjoined
    · exact W.waiting u p h.2 hu0 hdet hjoined
  case leaving =>
    intro u p a hu hd
    rcases State.before_goto hu with h | h
    · obtain ⟨rfl, rfl⟩ := h
      rcases M.deleting with hsame | ⟨_, hown, hdet⟩
      · exact W.leaving u os a ht (hsame.symm.trans hd)
      · obtain rfl : os.thread = a := congrArg Prod.fst (Option.some.inj (hown.symm.trans hd))
        exact ⟨rfl, hdet⟩
    · exact W.leaving u p a h.2 hd
  case found =>
    intro u p a hu hfound
    rcases State.before_goto hu with h | h
    · obtain ⟨rfl, rfl⟩ := h
      exact M.found a hfound
    · exact W.found u p a h.2 hfound

/-- The thread as it was before the move: what it deletes for a thread that it joined. -/
theorem Moves.did (M : Moves s os pc) (ht : s.threads t = some os) {u : Nat} {p : Os}
    (hu : (s.goto t os pc).threads u = some p) {a : Block} (hd : p.pc.deleting = some (a, false)) :
    ∃ q, s.threads u = some q ∧ q.pc.deleting = some (a, false) := by
  rcases State.before_goto hu with h | h
  · obtain ⟨rfl, rfl⟩ := h
    rcases M.deleting with hsame | ⟨_, hown, _⟩
    · exact ⟨os, ht, hsame.symm.trans hd⟩
    · exact absurd (hown.symm.trans hd) (by simp)
  · exact ⟨p, h.2, hd⟩

/-- A thread that waits has waited before, or has come to join another one. -/
theorem Moves.waited (M : Moves s os pc) (ht : s.threads t = some os) {u : Nat} {p : Os}
    (hu : (s.goto t os pc).threads u = some p) {a : Block} {w : Nat} (hj : p.pc.joining = some (a, w)) :
    (∃ q, s.threads u = some q ∧ q.pc.joining = some (a, w)) ∨ u = t ∧ Joinable s a w := by
  rcases State.before_goto hu with h | h
  · obtain ⟨rfl, rfl⟩ := h
    rcases M.joining with hsame | ⟨b, x, hnew, hjoinable⟩
    · exact Or.inl ⟨os, ht, hsame.symm.trans hj⟩
    · cases hnew.symm.trans hj
      exact Or.inr ⟨rfl, hjoinable⟩
  · exact Or.inl ⟨p, h.2, hj⟩

theorem Joins.goto (J : Joins s) (ht : s.threads t = some os) (M : Moves s os pc) : Joins (s.goto t os pc) := by
  constructor
  case joined =>
    intro u p hu hj
    rcases State.before_goto hu with h | h
    · obtain ⟨rfl, rfl⟩ := h
      obtain ⟨hended, hrest⟩ := J.joined u os ht hj
      exact ⟨M.ended hended, hrest⟩
    · exact J.joined u p h.2 hj
  case joining =>
    intro u p a w hu hj
    obtain ⟨hw, hw0, htarget⟩ : s.threads w ≠ none ∧ w ≠ 0 ∧
        ∀ q, s.threads w = some q → q.thread = a ∧ q.detached = false ∧ q.joined = false := by
      rcases M.waited ht hu hj with ⟨q, hq, hqj⟩ | ⟨_, hjoinable⟩
      · exact J.joining u q a w hq hqj
      · exact ⟨hjoinable.exists_thread, hjoinable.notMain, hjoinable.attached⟩
    refine ⟨fun hnone => ?_, hw0, fun q hq => ?_⟩
    · rw [s.goto_threads] at hnone
      by_cases hwt : w = t
      · rw [if_pos hwt] at hnone
        exact absurd hnone (by simp)
      · rw [if_neg hwt] at hnone
        exact hw hnone
    · obtain ⟨q', hq', hthread, _, hdet, hjoined⟩ := M.was ht hq
      rw [← hthread, ← hdet, ← hjoined]
      exact htarget q' hq'
  case joiner =>
    intro u p a w u' p' a' hu hj hu' hj'
    rcases M.waited ht hu hj with ⟨q, hq, hqj⟩ | ⟨h, hjoinable⟩ <;>
      rcases M.waited ht hu' hj' with ⟨q', hq', hqj'⟩ | ⟨h', hjoinable'⟩
    · exact J.joiner u q a w u' q' a' hq hqj hq' hqj'
    · exact absurd hqj (hjoinable'.nobody u q a hq)
    · exact absurd hqj' (hjoinable.nobody u' q' a' hq')
    · exact h.trans h'.symm
  case deleting =>
    intro u p a hu hd
    obtain ⟨q, hq, hqd⟩ := M.did ht hu hd
    obtain ⟨ha, hothers⟩ := J.deleting u q a hq hqd
    refine ⟨ha, fun v p' hv => ?_⟩
    obtain ⟨q', hq', hthread, hmaking, _, hjoined⟩ := M.was ht hv
    rw [← hthread, ← hjoined, ← hmaking]
    exact hothers v q' hq'
  case deleter =>
    intro u p a u' p' hu hd hu' hd'
    obtain ⟨q, hq, hqd⟩ := M.did ht hu hd
    obtain ⟨q', hq', hqd'⟩ := M.did ht hu' hd'
    exact J.deleter u q a u' q' hq hqd hq' hqd'

theorem Kept.goto (T : Kept s) (ht : s.threads t = some os) (M : Moves s os pc) : Kept (s.goto t os pc) := by
  constructor
  case held =>
    intro a ha
    refine State.exists_set (P := fun p => p.thread = a ∨ p.pc.making = some a) ht (T.held a ha) fun hold => ?_
    exact hold.imp_right fun hmaking => M.making.trans hmaking
  case pending =>
    intro u p hu hj ha
    obtain ⟨q, hq, hthread, _, _, hqj⟩ := M.was ht hu
    have hpending := T.pending u q hq (hqj.trans hj)
    rw [hthread] at hpending
    refine State.exists_set (P := fun q => q.pc.deleting = some (p.thread, false)) ht (hpending ha) fun hold => ?_
    rcases M.deleting with hsame | ⟨hnone, _⟩
    · exact hsame.trans hold
    · exact absurd (hnone.symm.trans hold) (by simp)

theorem Numbered.of_goto (ht : s.threads t = some os) (M : Moves s os pc) {a : Block}
    (h : Numbered (s.goto t os pc) a) : Numbered s a ∨ pc.numbering = some a ∧ NewId s a := by
  obtain ⟨u, p, hu, hp⟩ := h
  rcases State.before_goto hu with h | h
  · obtain ⟨rfl, rfl⟩ := h
    rcases hp with hown | hnum
    · exact Or.inl ⟨u, os, ht, Or.inl hown⟩
    · exact (M.numbering a hnum).imp (fun hold => ⟨u, os, ht, Or.inr hold⟩) fun hnew => ⟨hnum, hnew⟩
  · exact Or.inl ⟨u, p, h.2, hp⟩

theorem Ids.goto (I : Ids s) (ht : s.threads t = some os) (M : Moves s os pc) : Ids (s.goto t os pc) := by
  constructor
  · intro a r ha hr
    rcases Numbered.of_goto ht M ha with h | h
    · exact I.bound a r h hr
    · exact (h.2 r hr).1
  · intro a r b r' ha hb hr hr' hid
    rcases Numbered.of_goto ht M ha with h | h <;> rcases Numbered.of_goto ht M hb with h' | h'
    · exact I.distinct a r b r' h h' hr hr' hid
    · exact ((h'.2 r' hr').2 a r h hr hid).symm
    · exact (h.2 r hr).2 b r' h' hr' hid.symm
    · exact Option.some.inj (h.1.symm.trans h'.1)

theorem Identifiers.goto (I : Identifiers s) (ht : s.threads t = some os) (M : Moves s os pc) :
    Identifiers (s.goto t os pc) := by
  have hwas : ∀ u p, (s.goto t os pc).threads u = some p → Known (s.goto t os pc) p →
      ∃ q, s.threads u = some q ∧ q.sys = p.sys ∧ Known s q := by
    intro u p hu hknown
    rcases State.before_goto hu with h | h
    · obtain ⟨rfl, rfl⟩ := h
      refine ⟨os, ht, rfl, hknown.imp_left fun hin => ⟨?_, hin.2⟩⟩
      exact hin.1.imp_right fun hpc hended => hpc (M.ended hended)
    · exact ⟨p, h.2, rfl, hknown⟩
  intro u p v q hu hv hp hq hsys
  obtain ⟨p', hp', hpsys, hpknown⟩ := hwas u p hu hp
  obtain ⟨q', hq', hqsys, hqknown⟩ := hwas v q hv hq
  exact I u p' v q' hp' hq' hpknown hqknown (by rw [hpsys, hqsys, hsys])

/-- Nobody comes to name a thread, and the threads that are named stay. -/
theorem Named.stays {s' : State} (N : Named s)
    (hnaming : ∀ u p a, s'.threads u = some p → p.pc.naming = some a →
      ∃ q, s.threads u = some q ∧ q.pc.naming = some a)
    (hstays : ∀ u p, s.threads u = some p → ¬ Unnamed s p.thread → ∃ q, s'.threads u = some q ∧
      q.thread = p.thread ∧ q.joined = p.joined ∧ (q.detached = true → q.pc.Leaving → p.detached = true ∧ p.pc.Leaving))
    (hjoining : ∀ u p a w, s'.threads u = some p → p.pc.joining = some (a, w) →
      (∃ q, s.threads u = some q ∧ q.pc.joining = some (a, w)) ∨ Unnamed s a) : Named s' := by
  constructor
  case there =>
    intro u p a hu ha
    obtain ⟨q, hq, hname⟩ := hnaming u p a hu ha
    obtain ⟨v, p', hv, hv0, rfl, hjoined, hnot⟩ := N.there u q a hq hname
    obtain ⟨q', hq', hthread, hsame, hleaving⟩ := hstays v p' hv fun hun => hun u q hq hname
    exact ⟨v, q', hq', hv0, hthread, hsame.trans hjoined,
      fun hdet hout => hnot (hleaving hdet hout).1 (hleaving hdet hout).2⟩
  case waits =>
    intro u p a w v q hu hj hv hname
    obtain ⟨q', hq, hname'⟩ := hnaming v q a hv hname
    rcases hjoining u p a w hu hj with ⟨p', hp, hj'⟩ | hun
    · exact N.waits u p' a w v q' hp hj' hq hname'
    · exact hun v q' hq hname'

/-- One thread moves. -/
theorem Named.move {s' : State} (N : Named s) (ht : s.threads t = some os)
    (hmove : ∀ u, s'.threads u = if u = t then some { os with pc := pc } else s.threads u)
    (hnaming : ∀ a, pc.naming = some a → os.pc.naming = some a)
    (hleaving : pc.Leaving → os.pc.Leaving ∨ (os.detached = true → Unnamed s os.thread))
    (hjoining : ∀ a w, pc.joining = some (a, w) → os.pc.joining = some (a, w) ∨ Unnamed s a) : Named s' := by
  refine N.stays (fun u p a hu ha => ?_) (fun u p hu hnamed => ?_) fun u p a w hu hj => ?_
  · rcases State.before_move hmove hu with h | h
    · obtain ⟨rfl, rfl⟩ := h
      exact ⟨os, ht, hnaming a ha⟩
    · exact ⟨p, h.2, ha⟩
  · by_cases hut : u = t
    · subst hut
      cases ht.symm.trans hu
      refine ⟨{ os with pc := pc }, (hmove u).trans (if_pos rfl), rfl, rfl, fun hdet hout => ⟨hdet, ?_⟩⟩
      exact (hleaving hout).resolve_right fun hun => hnamed (hun hdet)
    · exact ⟨p, (hmove u).trans (by rw [if_neg hut, hu]), rfl, rfl, fun hdet hout => ⟨hdet, hout⟩⟩
  · rcases State.before_move hmove hu with h | h
    · obtain ⟨rfl, rfl⟩ := h
      exact (hjoining a w hj).imp_left fun hold => ⟨os, ht, hold⟩
    · exact Or.inl ⟨p, h.2, hj⟩

theorem Named.goto (N : Named s) (ht : s.threads t = some os) (M : Moves s os pc) : Named (s.goto t os pc) := by
  refine N.move ht (s.goto_threads t os pc) M.naming M.leaving fun a w hj => ?_
  rcases M.joining with hsame | ⟨b, x, hnew, J⟩
  · exact Or.inl (hsame.symm.trans hj)
  · cases hnew.symm.trans hj
    exact Or.inr J.unnamed

theorem Roles.goto (R : Roles s) (ht : s.threads t = some os) (M : Moves s os pc) : Roles (s.goto t os pc) :=
  ⟨R.places.goto ht M, R.owned.goto ht M, R.joins.goto ht M, R.kept.goto ht M, R.ids.goto ht M, R.identifiers.goto ht M,
    R.named.goto ht M⟩

/-- The mutex, the tree and the counter of ids are not part of it. -/
theorem Roles.frame (R : Roles s) (owner : Option Nat) (tree : Option Tree) {n : Nat}
    (hn : s.nextThreadId ≤ n) :
    Roles { s with owner := owner, threadtree := tree, nextThreadId := n } := by
  exact ⟨⟨R.places.fresh, R.places.unborn, R.places.bound, R.places.own, R.places.made, R.places.apart,
      R.places.maker⟩,
    ⟨R.owned.main, R.owned.right, R.owned.running, R.owned.waiting, R.owned.leaving, R.owned.found⟩,
    ⟨R.joins.joined, R.joins.joining, R.joins.joiner, R.joins.deleting, R.joins.deleter⟩,
    ⟨R.kept.held, R.kept.pending⟩,
    ⟨fun a r ha hr => Nat.lt_of_lt_of_le (R.ids.bound a r ha hr) hn, R.ids.distinct⟩, R.identifiers,
    ⟨R.named.there, R.named.waits⟩⟩

end

/-! A record is written. -/

section
variable {s : State} {a : Block} {r r' : ThreadType}

theorem State.put_records (s : State) (a : Block) (r : ThreadType) (b : Block) :
    (s.put a r).records b = if b = a then some r else s.records b :=
  Function.update_apply s.records a (some r) b

/-- What a write to a record leaves alone. -/
structure Writes (s : State) (a : Block) (r r' : ThreadType) : Prop where
  before : s.records a = some r
  owned : ∀ t os, s.threads t = some os → os.thread = a →
    r'.sysThread = r.sysThread ∧ r'.detached = r.detached
  id : Numbered s a → r'.threadId = r.threadId

/-- The records are the same ones. -/
theorem Writes.none_iff (W : Writes s a r r') (b : Block) : (s.put a r').records b = none ↔ s.records b = none := by
  rw [s.put_records]
  by_cases hb : b = a
  · rw [if_pos hb, hb, W.before]
    simp
  · rw [if_neg hb]

/-- A record after the write, and what it was before. -/
theorem State.put_was {b : Block} {q : ThreadType} (hq : (s.put a r').records b = some q) :
    b = a ∧ q = r' ∨ b ≠ a ∧ s.records b = some q := by
  rw [s.put_records] at hq
  by_cases hb : b = a
  · rw [if_pos hb] at hq
    exact Or.inl ⟨hb, (Option.some.inj hq).symm⟩
  · rw [if_neg hb] at hq
    exact Or.inr ⟨hb, hq⟩

theorem Places.put (P : Places s) (W : Writes s a r r') : Places (s.put a r') := by
  constructor
  case fresh => exact fun b hb => (W.none_iff b).mpr (P.fresh b hb)
  case made => exact fun t os b ht hb h => P.made t os b ht hb ((W.none_iff b).mp h)
  case unborn => exact P.unborn
  case bound => exact P.bound
  case own => exact P.own
  case apart => exact P.apart
  case maker => exact P.maker

theorem Owned.put (O : Owned s) (W : Writes s a r r') : Owned (s.put a r') := by
  constructor
  case main => exact O.main
  case right =>
    intro t os q ht hq
    rcases State.put_was hq with h | h
    · obtain ⟨hthread, rfl⟩ := h
      obtain ⟨hsys, hdet⟩ := W.owned t os ht hthread
      rw [hsys, hdet]
      exact O.right t os r ht (by rw [hthread, W.before])
    · exact O.right t os q ht h.2
  case running => exact fun t os ht hgone h => O.running t os ht hgone ((W.none_iff _).mp h)
  case waiting => exact fun t os ht h0 hdet hj h => O.waiting t os ht h0 hdet hj ((W.none_iff _).mp h)
  case leaving =>
    intro t os b ht hd
    obtain ⟨rfl, hdet⟩ := O.leaving t os b ht hd
    refine ⟨rfl, fun q hq => ?_⟩
    rcases State.put_was hq with h | h
    · obtain ⟨hthread, rfl⟩ := h
      rw [(W.owned t os ht hthread).2]
      exact hdet r (by rw [hthread, W.before])
    · exact hdet q h.2
  case found => exact O.found

theorem Joins.put (J : Joins s) (W : Writes s a r r') : Joins (s.put a r') := by
  constructor
  case joined => exact J.joined
  case joining => exact J.joining
  case joiner => exact J.joiner
  case deleting =>
    intro t os b ht hd
    obtain ⟨hb, hothers⟩ := J.deleting t os b ht hd
    exact ⟨fun h => hb ((W.none_iff b).mp h), hothers⟩
  case deleter => exact J.deleter

theorem Kept.put (K : Kept s) (W : Writes s a r r') : Kept (s.put a r') := by
  constructor
  case held => exact fun b hb => K.held b fun h => hb ((W.none_iff b).mpr h)
  case pending => exact fun t os ht hj hb => K.pending t os ht hj fun h => hb ((W.none_iff _).mpr h)

/-- The id of a record that has one is not written. -/
theorem Writes.threadId (W : Writes s a r r') {b : Block} {q : ThreadType} (hb : Numbered s b)
    (hq : (s.put a r').records b = some q) : ∃ q', s.records b = some q' ∧ q'.threadId = q.threadId := by
  rcases State.put_was hq with h | h
  · obtain ⟨rfl, rfl⟩ := h
    exact ⟨r, W.before, (W.id hb).symm⟩
  · exact ⟨q, h.2, rfl⟩

theorem Ids.put (I : Ids s) (W : Writes s a r r') : Ids (s.put a r') := by
  constructor
  case bound =>
    intro b q hb hq
    obtain ⟨q', hq', hid⟩ := W.threadId hb hq
    exact hid ▸ I.bound b q' hb hq'
  case distinct =>
    intro b q c q' hb hc hq hq' hsame
    obtain ⟨p, hp, hid⟩ := W.threadId hb hq
    obtain ⟨p', hp', hid'⟩ := W.threadId hc hq'
    exact I.distinct b p c p' hb hc hp hp' (by rw [hid, hid', hsame])

theorem Identifiers.put (I : Identifiers s) (W : Writes s a r r') : Identifiers (s.put a r') := by
  have hknown : ∀ os, Known (s.put a r') os → Known s os := fun os h =>
    h.imp_right fun hrec hnone => hrec ((W.none_iff _).mpr hnone)
  exact fun t os u os' ht hu hin hin' => I t os u os' ht hu (hknown os hin) (hknown os' hin')

theorem Roles.put (R : Roles s) (W : Writes s a r r') : Roles (s.put a r') :=
  ⟨R.places.put W, R.owned.put W, R.joins.put W, R.kept.put W, R.ids.put W, R.identifiers.put W,
    ⟨R.named.there, R.named.waits⟩⟩

end

end IcecastCommon.Thread
