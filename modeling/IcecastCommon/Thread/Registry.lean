import Mathlib.Logic.Function.Basic
import IcecastCommon.Avl.Stored
import IcecastCommon.Encoding.State

/- The thread tree of `thread.c`. Every thread has a record in it, and `_threadtree_mutex` guards
   the tree and the counter of ids. A step is what one thread does between two points where
   another may run: it takes the mutex, runs the code under it, or leaves it and goes on to the
   next call that can block or to the next read of a record that another thread may have freed.
   The events choose the thread, so a list of them is an interleaving. A fault (`none`) is an
   access to a record that is not allocated, a NULL pointer followed, a `pthread_join` or a
   `pthread_setname_np` without a thread for it, or the id counter overflowing.
   A pointer to a record is the block that `calloc` made, and `address` is where that block lies: a
   freed address may be given out again, a block is not. `pthread_create` stores the identifier
   before the new thread runs. Records keep no source line and no creation time, which nothing
   reads. -/
namespace IcecastCommon.Thread
open Avl
open Encoding (Bytes)

/-- A `pthread_t`. -/
abbrev Pthread := Nat

/-- An allocated record. -/
abbrev Block := Nat

/-- A `thread_type`. -/
structure ThreadType where
  threadId : Nat
  name : Option Bytes
  detached : Bool
  sysThread : Pthread
deriving DecidableEq

/-- A `thread_type *` in the tree, with the id that `_compare_threads` reads through it. -/
structure ThreadPtr where
  block : Block
  threadId : Nat
deriving DecidableEq

abbrev Tree := AvlState ThreadPtr

/-- `_compare_threads`. No key is NULL. -/
def compareThreads (a b : Option ThreadPtr) : Int :=
  let id1 := (a.map ThreadPtr.threadId).getD 0
  let id2 := (b.map ThreadPtr.threadId).getD 0
  if id1 > id2 then 1 else if id1 < id2 then -1 else 0

/-- What follows `thread_self`: its caller, `thread_rename` or `thread_exit`. -/
inductive After
  | ret
  | rename (name : Bytes)
  | exit
deriving DecidableEq

/-- The code under `_threadtree_mutex`: in `thread_create_c`, in `_start_routine`, in `thread_self`,
and `avl_delete` at the end of a thread or in `thread_join`. -/
inductive Body
  | nextId (th : Block) (name : Bytes) (detached : Bool)
  | insert
  | scan (after : After)
  | delete (th : Block) (leaving : Bool)
deriving DecidableEq

/-- Where a thread is. In `setname` it comes to `pthread_setname_np`, to the second one when `again`. -/
inductive Pc
  | routine
  | lock (b : Body)
  | inside (b : Body)
  | unlock (b : Body) (found : Option Block)
  | back (b : Body) (found : Option Block)
  | spawn (th : Block)
  | setname (th : Block) (again : Bool)
  | join (th : Block) (target : Nat)
  | ended
deriving DecidableEq

/-- A thread of the system. `thread` is the record it was started with. -/
structure Os where
  sys : Pthread
  detached : Bool
  joined : Bool
  thread : Block
  pc : Pc
deriving DecidableEq

/-- The system keeps the identifier: a detached thread has not ended, another one is not joined. -/
def Os.InUse (os : Os) : Prop := (os.detached = false ∨ os.pc ≠ .ended) ∧ os.joined = false

instance (os : Os) : Decidable os.InUse :=
  inferInstanceAs (Decidable ((os.detached = false ∨ os.pc ≠ .ended) ∧ os.joined = false))

structure State where
  records : Block → Option ThreadType
  address : Block → Nat
  next : Block
  threadtree : Option Tree
  owner : Option Nat
  nextThreadId : Nat
  threads : Nat → Option Os
  count : Nat

namespace State

def put (s : State) (th : Block) (r : ThreadType) : State :=
  { s with records := Function.update s.records th (some r) }

/-- `free(thread)`, with what the record points to. -/
def free (s : State) (th : Block) : Option State := do
  let _ ← s.records th
  some { s with records := Function.update s.records th none }

/-- `calloc(1, sizeof(thread_type))`, which gives the address. -/
def alloc (s : State) (address : Nat) : Block × State :=
  (s.next, { s with
    records := Function.update s.records s.next
      (some { threadId := 0, name := none, detached := false, sysThread := 0 })
    address := Function.update s.address s.next address
    next := s.next + 1 })

def set (s : State) (t : Nat) (os : Os) : State :=
  { s with threads := Function.update s.threads t (some os) }

def goto (s : State) (t : Nat) (os : Os) (pc : Pc) : State := s.set t { os with pc := pc }

/-- The thread that `pthread_join` waits for: not joined before, not detached. -/
def joinable (s : State) (sys : Pthread) : Option Nat :=
  (List.range s.count).find? fun u =>
    match s.threads u with
    | some os => os.sys = sys ∧ os.detached = false ∧ os.joined = false
    | none => false

/-- The identifier is that of a thread. -/
def isThread (s : State) (sys : Pthread) : Bool :=
  (List.range s.count).any fun u =>
    match s.threads u with
    | some os => os.sys = sys ∧ os.InUse
    | none => false

end State

/-- `_free_thread`, on the keys that the tree hands over. -/
def freeThreads (s : State) : List (Option ThreadPtr) → Option State
  | [] => some s
  | none :: _ => none
  | some p :: ps => do
    let s ← s.free p.block
    freeThreads s ps

/-- The loop of `thread_self`. -/
def selfLoop (records : Block → Option ThreadType) (sysThread : Pthread) (h : Heap ThreadPtr) :
    Nat → Ptr → Option (Option Block)
  | 0, _ => none
  | _ + 1, none => some none
  | fuel + 1, some a => do
    let n ← h.cell a
    match n.key with
    | none => do
      let node ← avlGetNext h (some a)
      selfLoop records sysThread h fuel node
    | some th => do
      let r ← records th.block
      if sysThread = r.sysThread then some (some th.block)
      else
        let node ← avlGetNext h (some a)
        selfLoop records sysThread h fuel node

/-- What the system decides at a turn: the result of `pthread_create`, whether `pthread_setname_np` takes
the name, and whether there is memory. -/
structure Answer where
  created : Option Pthread
  named : Bool
  mem : Bool

/-- The code under the mutex. -/
def body (s : State) (os : Os) (answer : Answer) : Body → Option (Option Block × State)
  | .nextId th _ _ => do
    let r ← s.records th
    if s.nextThreadId + 1 = 2 ^ 63 then none
    else some (none, { s.put th { r with threadId := s.nextThreadId } with nextThreadId := s.nextThreadId + 1 })
  | .insert => do
    let r ← s.records os.thread
    let tree ← s.threadtree
    let (_, tree) ← avlInsert answer.mem tree (some ⟨os.thread, r.threadId⟩)
    some (none, { s.put os.thread { r with sysThread := os.sys } with threadtree := some tree })
  | .scan _ =>
    match s.threadtree with
    | none => some (none, s)
    | some tree => do
      let node ← avlGetFirst tree
      let found ← selfLoop s.records os.sys tree.heap tree.heap.next node
      some (found, s)
  | .delete th _ => do
    let r ← s.records th
    let tree ← s.threadtree
    let (_, tree') ← avlDelete true tree (some ⟨th, r.threadId⟩)
    let s ← freeThreads { s with threadtree := some tree' } (tree'.freed.drop tree.freed.length)
    some (none, s)

/-- What a call or a turn gives back to the program. -/
inductive Out
  | quiet
  | created (th : Option Block)
  | self (th : Option Block)
deriving DecidableEq

/-- From the return of `_mutex_unlock` on. -/
def leave (s : State) (t : Nat) (os : Os) (found : Option Block) : Body → Option (Out × State)
  | .nextId th name detached => do
    let r ← s.records th
    some (.quiet, (s.put th { r with name := some name, detached := detached }).goto t os (.spawn th))
  | .insert => some (.quiet, s.goto t os .routine)
  | .scan .ret => some (.self found, s.goto t os .routine)
  | .scan (.rename name) => do
    let th ← found
    let r ← s.records th
    some (.quiet, (s.put th { r with name := some name }).goto t os .routine)
  | .scan .exit =>
    match found with
    | none => some (.quiet, s.goto t os .ended)
    | some th => do
      let r ← s.records th
      some (.quiet, s.goto t os (if r.detached then .lock (.delete th true) else .ended))
  | .delete _ leaving => some (.quiet, s.goto t os (if leaving then .ended else .routine))

/-- `pthread_create` in `thread_create_c`. -/
def spawn (s : State) (t : Nat) (os : Os) (th : Block) : Option Pthread → Option (Out × State)
  | none => do
    let s ← s.free th
    some (.created none, s.goto t os .routine)
  | some sys => do
    let r ← s.records th
    let new : Os :=
      { sys := sys, detached := r.detached, joined := false, thread := th, pc := .lock .insert }
    let s := { (s.put th { r with sysThread := sys }).set s.count new with count := s.count + 1 }
    some (.quiet, s.goto t os (.setname th false))

/-- `pthread_setname_np` in `thread_create_c`. The record belongs to the new thread by now. -/
def setname (s : State) (t : Nat) (os : Os) (th : Block) (again named : Bool) : Option (Out × State) := do
  let r ← s.records th
  if s.isThread r.sysThread then
    if named || again then some (.created (some th), s.goto t os .routine)
    else some (.quiet, s.goto t os (.setname th true))
  else none

/-- A thread takes a turn. A thread that cannot get the mutex waits, and so does one that
joins a thread that is still running. -/
def turn (s : State) (t : Nat) (os : Os) (answer : Answer) : Option (Out × State) :=
  match os.pc with
  | .routine => some (.quiet, s)
  | .lock b =>
    match s.owner with
    | none => some (.quiet, { s.goto t os (.inside b) with owner := some t })
    | some _ => some (.quiet, s)
  | .inside b => do
    let (found, s) ← body s os answer b
    some (.quiet, s.goto t os (.unlock b found))
  | .unlock b found => some (.quiet, { s.goto t os (.back b found) with owner := none })
  | .back b found => leave s t os found b
  | .spawn th => spawn s t os th answer.created
  | .setname th again => setname s t os th again answer.named
  | .join th target => do
    let other ← s.threads target
    if other.joined then none
    else if other.pc = .ended then
      some (.quiet, (s.set target { other with joined := true }).goto t os (.lock (.delete th false)))
    else some (.quiet, s)
  | .ended => some (.quiet, s)

/-- A call of the program, or the return of its start routine. For `thread_create` the system gives the
address of the record, if there is memory. -/
inductive Call
  | create (name : Bytes) (detached : Bool) (mem : Option Nat)
  | self
  | rename (name : Bytes)
  | exit
  | join (th : Option Block)
  | finish
deriving DecidableEq

/-- What a call does before it first waits. The main thread is not started by `_start_routine`. -/
def call (s : State) (t : Nat) (os : Os) : Call → Option (Out × State)
  | .create _ _ none => some (.created none, s)
  | .create name detached (some address) =>
    let (th, s) := s.alloc address
    some (.quiet, s.goto t os (.lock (.nextId th name detached)))
  | .self => some (.quiet, s.goto t os (.lock (.scan .ret)))
  | .rename name => some (.quiet, s.goto t os (.lock (.scan (.rename name))))
  | .exit => some (.quiet, s.goto t os (.lock (.scan .exit)))
  | .join thread => do
    let th ← thread
    let r ← s.records th
    let target ← s.joinable r.sysThread
    some (.quiet, s.goto t os (.join th target))
  | .finish =>
    if t = 0 then some (.quiet, s)
    else do
      let r ← s.records os.thread
      some (.quiet, s.goto t os (if r.detached then .lock (.delete os.thread true) else .ended))

inductive Event
  | call (t : Nat) (c : Call)
  | turn (t : Nat) (answer : Answer)

/-- One event. Only a thread in code of the program calls. -/
def step : Event → State → Option (Out × State)
  | .call t c, s =>
    match s.threads t with
    | some os => if os.pc = .routine then call s t os c else some (.quiet, s)
    | none => some (.quiet, s)
  | .turn t answer, s =>
    match s.threads t with
    | some os => turn s t os answer
    | none => some (.quiet, s)

/-- What the system gives to `thread_initialize`: the identifier of its thread, the address of the record
and what `malloc` left in `detached`. -/
structure Start where
  sys : Pthread
  address : Nat
  detached : Bool

/-- The main thread alone. -/
def mainOnly (start : Start) (thread : ThreadType) (tree : Tree) : State :=
  { records := Function.update (fun _ => none) 0 (some thread)
    address := fun _ => start.address
    next := 1
    threadtree := some tree
    owner := none
    nextThreadId := thread.threadId + 1
    threads := Function.update (fun _ => none) 0
      (some { sys := start.sys, detached := false, joined := false, thread := 0, pc := .routine })
    count := 1 }

/-- `thread_initialize`. It does not write `detached`. -/
def threadInitialize (start : Start) : Option State := do
  let tree ← avlTreeNew true true compareThreads
  let thread : ThreadType :=
    { threadId := 0, name := some "Main Thread".toUTF8.toList, detached := start.detached, sysThread := start.sys }
  let (_, tree) ← avlInsert true tree (some ⟨0, thread.threadId⟩)
  some (mainOnly start thread tree)

/-- `thread_shutdown`. -/
def threadShutdown (s : State) : Option State := do
  let tree ← s.threadtree
  let (_, freed) ← avlTreeFree true tree
  let s ← freeThreads s (freed.drop tree.freed.length)
  some { s with threadtree := none }

end IcecastCommon.Thread
