import Mathlib.Algebra.Order.BigOperators.Group.Finset
import IcecastCommon.Thread.Roles

/- What one turn changes. It makes no record and moves none, and it lowers the number of turns that
   the calls under way still take, unless the thread waits or is in code of the program. -/
namespace IcecastCommon.Thread
open Avl Library

/-- How many turns follow the code under the mutex. Those of a thread that is started count as well. -/
def Body.turns : Body → Nat
  | .nextId _ _ _ => 8
  | .insert => 1
  | .scan _ => 5
  | .delete _ _ => 1

/-- How many turns a thread, and one that it starts, takes at most to come back to the program. -/
def Pc.turns : Pc → Nat
  | .routine => 0
  | .lock b => b.turns + 3
  | .inside b => b.turns + 2
  | .unlock b _ => b.turns + 1
  | .back b _ => b.turns
  | .spawn _ => 7
  | .setname _ again => if again then 1 else 2
  | .join _ _ => 5
  | .ended => 0

theorem Pc.turns_le (pc : Pc) : pc.turns ≤ 11 := by
  cases pc with
  | lock b | inside b | unlock b _ | back b _ => cases b <;> simp [Pc.turns, Body.turns]
  | setname th again => cases again <;> simp [Pc.turns]
  | _ => simp [Pc.turns]

namespace State

def turnsOf (s : State) (t : Nat) : Nat := ((s.threads t).map fun os => os.pc.turns).getD 0

/-- The turns of all threads. -/
def work (s : State) : Nat := ∑ t ∈ Finset.range s.count, s.turnsOf t

theorem turnsOf_eq {s : State} {t : Nat} {os : Os} (ht : s.threads t = some os) : s.turnsOf t = os.pc.turns := by
  rw [turnsOf, ht]
  rfl

theorem work_le (s : State) : s.work ≤ 11 * s.count := by
  have hle : ∀ t ∈ Finset.range s.count, s.turnsOf t ≤ 11 := by
    intro t _
    cases ht : s.threads t with
    | none => simp [turnsOf, ht]
    | some os =>
      rw [turnsOf_eq ht]
      exact os.pc.turns_le
  calc s.work ≤ ∑ _t ∈ Finset.range s.count, 11 := Finset.sum_le_sum hle
    _ = 11 * s.count := by rw [Finset.sum_const, Finset.card_range, smul_eq_mul, Nat.mul_comm]

/-- One thread has fewer turns left, and another one starts with no more than that. -/
theorem work_lt_start {s s' : State} {t : Nat} (hcount : s'.count = s.count + 1) (ht : t < s.count)
    (hothers : ∀ u < s.count, u ≠ t → s'.turnsOf u = s.turnsOf u)
    (hlow : s'.turnsOf t + s'.turnsOf s.count < s.turnsOf t) : s'.work < s.work := by
  have hmem := Finset.mem_range.mpr ht
  have hrest : ∑ u ∈ (Finset.range s.count).erase t, s'.turnsOf u =
      ∑ u ∈ (Finset.range s.count).erase t, s.turnsOf u := by
    refine Finset.sum_congr rfl fun u hu => ?_
    obtain ⟨hut, hu⟩ := Finset.mem_erase.mp hu
    exact hothers u (Finset.mem_range.mp hu) hut
  rw [work, work, hcount, Finset.sum_range_succ, ← Finset.add_sum_erase _ _ hmem,
    ← Finset.add_sum_erase (Finset.range s.count) s.turnsOf hmem, hrest]
  omega

/-- One thread has fewer turns left, and the others no more. -/
theorem work_lt {s s' : State} {t : Nat} (hcount : s'.count = s.count) (ht : t < s.count)
    (hothers : ∀ u, u ≠ t → s'.turnsOf u = s.turnsOf u) (hlow : s'.turnsOf t < s.turnsOf t) : s'.work < s.work := by
  rw [work, work, hcount]
  refine Finset.sum_lt_sum (fun u _ => ?_) ⟨t, Finset.mem_range.mpr ht, hlow⟩
  by_cases hut : u = t
  · rw [hut]
    exact hlow.le
  · rw [hothers u hut]

end State

/-- A thread that a turn does not move. -/
def Waits (s : State) : Pc → Prop
  | .routine => True
  | .ended => True
  | .lock _ => s.owner ≠ none
  | .join _ target => ∃ other, s.threads target = some other ∧ other.pc ≠ .ended
  | _ => False


/-! The functions of a turn. -/

/-- The threads stay where they are, no record is made and none is moved. -/
structure Frame (s s' : State) : Prop where
  threads : s'.threads = s.threads
  count : s'.count = s.count
  address : s'.address = s.address
  records : ∀ a, s'.records a ≠ none → s.records a ≠ none

namespace Frame
variable {s s' s'' : State}

theorem refl (s : State) : Frame s s := ⟨rfl, rfl, rfl, fun _ h => h⟩

theorem trans (F : Frame s s') (F' : Frame s' s'') : Frame s s'' :=
  ⟨F'.threads.trans F.threads, F'.count.trans F.count, F'.address.trans F.address,
    fun a h => F.records a (F'.records a h)⟩

theorem put {a : Block} {r : ThreadType} (hr : s.records a = some r) (r' : ThreadType) : Frame s (s.put a r') := by
  refine ⟨rfl, rfl, rfl, fun b hb hnone => hb ?_⟩
  rw [s.put_records]
  by_cases h : b = a
  · rw [h, hr] at hnone
    exact absurd hnone (by simp)
  · rw [if_neg h, hnone]

theorem free {a : Block} (h : s.free a = some s') : Frame s s' := by
  simp only [State.free, Option.bind_eq_bind, Option.bind_eq_some_iff] at h
  obtain ⟨r, hr, h⟩ := h
  cases h
  refine ⟨rfl, rfl, rfl, fun b hb hnone => hb ?_⟩
  show Function.update s.records a none b = none
  rw [Function.update_apply, hnone, ite_self]

theorem freeThreads {keys : List (Option ThreadPtr)} (h : Thread.freeThreads s keys = some s') : Frame s s' := by
  induction keys generalizing s with
  | nil =>
    cases h
    exact .refl _
  | cons k ks ih =>
    cases k with
    | none => exact absurd h (by simp [Thread.freeThreads])
    | some p =>
      simp only [Thread.freeThreads, Option.bind_eq_bind, Option.bind_eq_some_iff] at h
      obtain ⟨s₁, h₁, h⟩ := h
      exact (Frame.free h₁).trans (ih h)

end Frame

section
variable {s s' : State} {t : Nat} {os : Os} {pc : Pc}

theorem body_frame {answer : Answer} {b : Body} {found : Option Block} (h : body s os answer b = some (found, s')) :
    Frame s s' := by
  cases b with
  | nextId th name detached =>
    simp only [body, Option.bind_eq_bind, Option.bind_eq_some_iff] at h
    obtain ⟨r, hr, h⟩ := h
    split at h
    · cases h
    · cases h
      have F := Frame.put hr { r with threadId := s.nextThreadId }
      exact ⟨F.threads, F.count, F.address, F.records⟩
  | insert =>
    simp only [body, Option.bind_eq_bind, Option.bind_eq_some_iff] at h
    obtain ⟨r, hr, tree, _, _, _, h⟩ := h
    cases h
    have F := Frame.put hr { r with sysThread := os.sys }
    exact ⟨F.threads, F.count, F.address, F.records⟩
  | scan after =>
    simp only [body] at h
    split at h
    · cases h
      exact .refl s
    · simp only [Option.bind_eq_bind, Option.bind_eq_some_iff] at h
      obtain ⟨_, _, _, _, h⟩ := h
      cases h
      exact .refl s
  | delete th leaving =>
    simp only [body, Option.bind_eq_bind, Option.bind_eq_some_iff] at h
    obtain ⟨r, _, tree, _, ⟨_, tree'⟩, _, s₁, hfree, h⟩ := h
    cases h
    have F := Frame.freeThreads hfree
    exact ⟨F.threads, F.count, F.address, F.records⟩

/-- The thread goes on to `pc`, with fewer turns left. -/
structure Goes (s s' : State) (t : Nat) (os : Os) (pc : Pc) : Prop where
  threads : s'.threads = Function.update s.threads t (some { os with pc := pc })
  count : s'.count = s.count
  address : s'.address = s.address
  records : ∀ a, s'.records a ≠ none → s.records a ≠ none
  turns : pc.turns < os.pc.turns

theorem Frame.goto (F : Frame s s') {pc : Pc} (h : pc.turns < os.pc.turns) : Goes s (s'.goto t os pc) t os pc := by
  refine ⟨?_, F.count, F.address, F.records, h⟩
  rw [← F.threads]
  rfl

theorem Goes.work (G : Goes s s' t os pc) (P : Places s) (ht : s.threads t = some os) : s'.work < s.work := by
  refine State.work_lt G.count (P.lt_count ht) (fun u hut => ?_) ?_
  · rw [State.turnsOf, State.turnsOf, G.threads, Function.update_of_ne hut]
  · rw [State.turnsOf_eq ht, State.turnsOf, G.threads, Function.update_self]
    exact G.turns

theorem leave_goes {b : Body} {found : Option Block} {out : Out} (hpc : os.pc = .back b found)
    (h : leave s t os found b = some (out, s')) : ∃ pc, Goes s s' t os pc := by
  have hturns : os.pc.turns = b.turns := by rw [hpc]; rfl
  cases b with
  | nextId th name detached =>
    simp only [leave, Option.bind_eq_bind, Option.bind_eq_some_iff] at h
    obtain ⟨r, hr, h⟩ := h
    cases h
    exact ⟨_, (Frame.put hr _).goto (by rw [hturns]; simp [Pc.turns, Body.turns])⟩
  | insert =>
    cases h
    exact ⟨_, (Frame.refl s).goto (by rw [hturns]; simp [Pc.turns, Body.turns])⟩
  | scan after =>
    cases after with
    | ret =>
      cases h
      exact ⟨_, (Frame.refl s).goto (by rw [hturns]; simp [Pc.turns, Body.turns])⟩
    | rename name =>
      simp only [leave, Option.bind_eq_bind, Option.bind_eq_some_iff] at h
      obtain ⟨th, _, r, hr, h⟩ := h
      cases h
      exact ⟨_, (Frame.put hr _).goto (by rw [hturns]; simp [Pc.turns, Body.turns])⟩
    | exit =>
      cases found with
      | none =>
        cases h
        exact ⟨_, (Frame.refl s).goto (by rw [hturns]; simp [Pc.turns, Body.turns])⟩
      | some th =>
        simp only [leave, Option.bind_eq_bind, Option.bind_eq_some_iff] at h
        obtain ⟨r, _, h⟩ := h
        cases h
        exact ⟨_, (Frame.refl s).goto (by rw [hturns]; cases r.detached <;> simp [Pc.turns, Body.turns])⟩
  | delete th leaving =>
    cases h
    exact ⟨_, (Frame.refl s).goto (by rw [hturns]; cases leaving <;> simp [Pc.turns, Body.turns])⟩

/-- What a turn changes when the thread does not wait. -/
structure Works (s s' : State) : Prop where
  address : s'.address = s.address
  records : ∀ a, s'.records a ≠ none → s.records a ≠ none
  work : s'.work < s.work

theorem Goes.works (G : Goes s s' t os pc) (P : Places s) (ht : s.threads t = some os) : Works s s' :=
  ⟨G.address, G.records, G.work P ht⟩

/-- A thread is started, and the one that started it goes on to name it. -/
theorem spawn_cases {th : Block} {sys : Pthread} {out : Out} (h : spawn s t os th (some sys) = some (out, s')) :
    ∃ r new, s.records th = some r ∧ new.pc = .lock .insert ∧ s'.count = s.count + 1 ∧
      s'.address = s.address ∧ s'.records = (s.put th { r with sysThread := sys }).records ∧
      ∀ u, s'.threads u = if u = t then some { os with pc := .setname th false } else
        if u = s.count then some new else s.threads u := by
  simp only [spawn, Option.bind_eq_bind, Option.bind_eq_some_iff] at h
  obtain ⟨r, hr, h⟩ := h
  cases h
  refine ⟨r, { sys := sys, detached := r.detached, joined := false, thread := th, pc := .lock .insert }, hr, rfl, rfl,
    rfl, rfl, fun u => ?_⟩
  rw [State.goto_threads]
  refine congrArg (fun p => if u = t then _ else p) ?_
  exact Function.update_apply s.threads s.count _ u

theorem spawn_works (P : Places s) (ht : s.threads t = some os) {th : Block} {created : Option Pthread} {out : Out}
    (hpc : os.pc = .spawn th) (h : spawn s t os th created = some (out, s')) : Works s s' := by
  have hturns : os.pc.turns = 7 := by rw [hpc]; rfl
  cases created with
  | none =>
    simp only [spawn, Option.bind_eq_bind, Option.bind_eq_some_iff] at h
    obtain ⟨s₁, hfree, h⟩ := h
    cases h
    exact ((Frame.free hfree).goto (by rw [hturns]; simp [Pc.turns])).works P ht
  | some sys =>
    obtain ⟨r, new, hr, hnew, hcount, haddress, hrecords, hthreads⟩ := spawn_cases h
    have hlt := P.lt_count ht
    refine ⟨haddress, fun a ha => (Frame.put hr _).records a (hrecords ▸ ha), ?_⟩
    -- The thread that is started has four of the seven turns.
    refine State.work_lt_start hcount hlt (fun u hu hut => ?_) ?_
    · rw [State.turnsOf, State.turnsOf, hthreads, if_neg hut, if_neg hu.ne]
    · rw [State.turnsOf_eq ht, State.turnsOf_eq ((hthreads t).trans (if_pos rfl)),
        State.turnsOf_eq ((hthreads s.count).trans ((if_neg hlt.ne').trans (if_pos rfl))), hnew, hturns]
      exact Nat.lt_succ_self 6

theorem setname_works (P : Places s) (ht : s.threads t = some os) {th : Block} {again named : Bool} {out : Out}
    (hpc : os.pc = .setname th again) (h : setname s t os th again named = some (out, s')) : Works s s' := by
  have hturns : os.pc.turns = if again then 1 else 2 := by rw [hpc]; rfl
  simp only [setname, Option.bind_eq_bind, Option.bind_eq_some_iff] at h
  obtain ⟨r, _, h⟩ := h
  split at h
  · split at h
    · cases h
      exact ((Frame.refl s).goto (by rw [hturns]; cases again <;> simp [Pc.turns])).works P ht
    · rename_i hnot
      cases h
      refine ((Frame.refl s).goto ?_).works P ht
      rw [hturns]
      cases again with
      | true => exact absurd (by simp) hnot
      | false => simp [Pc.turns]
  · cases h

/-- The thread that is joined is left in its place. -/
theorem join_works (P : Places s) (ht : s.threads t = some os) {th : Block} {target : Nat} {answer : Answer} {out : Out}
    (hpc : os.pc = .join th target) (h : turn s t os answer = some (out, s')) :
    Waits s (.join th target) ∧ s' = s ∨ Works s s' := by
  rw [turn, hpc] at h
  simp only [Option.bind_eq_bind, Option.bind_eq_some_iff] at h
  obtain ⟨other, hother, h⟩ := h
  split at h
  · cases h
  · split at h
    case isTrue hended =>
      cases h
      have hne : target ≠ t := by
        intro hsame
        rw [hsame, ht] at hother
        rw [← Option.some.inj hother, hpc] at hended
        exact absurd hended (by simp)
      refine Or.inr ⟨rfl, fun _ ha => ha, State.work_lt rfl (P.lt_count ht) (fun u hut => ?_) ?_⟩
      · rw [State.turnsOf, State.goto_threads, if_neg hut, State.set_threads]
        by_cases hu : u = target
        · rw [if_pos hu, hu, State.turnsOf_eq hother]
          rfl
        · rw [if_neg hu]
          rfl
      · rw [State.turnsOf_eq ht, State.turnsOf, State.goto_threads, if_pos rfl, hpc]
        exact Nat.lt_succ_self 4
    case isFalse hended =>
      cases h
      exact Or.inl ⟨⟨other, hother, hended⟩, rfl⟩

/-- A turn changes nothing when the thread waits, and takes it on otherwise. -/
theorem turn_works (P : Places s) (ht : s.threads t = some os) {answer : Answer} {out : Out}
    (h : turn s t os answer = some (out, s')) : Waits s os.pc ∧ s' = s ∨ Works s s' := by
  cases hpc : os.pc with
  | routine =>
    rw [turn, hpc] at h
    cases h
    exact Or.inl ⟨trivial, rfl⟩
  | ended =>
    rw [turn, hpc] at h
    cases h
    exact Or.inl ⟨trivial, rfl⟩
  | lock b =>
    rw [turn, hpc] at h
    cases howner : s.owner with
    | some u =>
      rw [howner] at h
      cases h
      exact Or.inl ⟨by rw [Waits, howner]; simp, rfl⟩
    | none =>
      rw [howner] at h
      cases h
      have G : Goes s (s.goto t os (.inside b)) t os (.inside b) :=
        (Frame.refl s).goto (by rw [hpc]; exact Nat.lt_succ_self _)
      exact Or.inr ⟨G.address, G.records, G.work P ht⟩
  | inside b =>
    rw [turn, hpc] at h
    simp only [Option.bind_eq_bind, Option.bind_eq_some_iff] at h
    obtain ⟨⟨found, s₁⟩, hbody, h⟩ := h
    cases h
    exact Or.inr (((body_frame hbody).goto (by rw [hpc]; exact Nat.lt_succ_self _)).works P ht)
  | unlock b found =>
    rw [turn, hpc] at h
    cases h
    have G : Goes s (s.goto t os (.back b found)) t os (.back b found) :=
      (Frame.refl s).goto (by rw [hpc]; exact Nat.lt_succ_self _)
    exact Or.inr ⟨G.address, G.records, G.work P ht⟩
  | back b found =>
    rw [turn, hpc] at h
    obtain ⟨pc, G⟩ := leave_goes hpc h
    exact Or.inr (G.works P ht)
  | spawn th =>
    rw [turn, hpc] at h
    exact Or.inr (spawn_works P ht hpc h)
  | setname th again =>
    rw [turn, hpc] at h
    exact Or.inr (setname_works P ht hpc h)
  | join th target =>
    exact join_works P ht hpc h

end

/-- A turn of a thread that waits changes nothing. -/
theorem turn_waits {s s' : State} {t : Nat} {os : Os} (hwaits : Waits s os.pc) {answer : Answer} {out : Out}
    (h : turn s t os answer = some (out, s')) : s' = s := by
  cases hpc : os.pc with
  | routine | ended =>
    rw [turn, hpc] at h
    cases h
    rfl
  | lock b =>
    rw [hpc] at hwaits
    obtain ⟨u, howner⟩ := Option.ne_none_iff_exists'.mp hwaits
    rw [turn, hpc, howner] at h
    cases h
    rfl
  | join th target =>
    rw [hpc] at hwaits
    obtain ⟨other, hother, hended⟩ := hwaits
    rw [turn, hpc] at h
    simp only [hother, Option.bind_eq_bind, Option.bind_some, if_neg hended] at h
    split at h
    · cases h
    · cases h
      rfl
  | inside b | unlock b found | back b found | spawn th | setname th again =>
    rw [hpc] at hwaits
    exact absurd hwaits id

/-! Addresses. -/

/-- No two allocated records lie at one address. -/
def Addresses (s : State) : Prop :=
  ∀ a b, s.records a ≠ none → s.records b ≠ none → s.address a = s.address b → a = b

/-- No allocated record lies at the address. -/
def FreeAddress (s : State) (address : Nat) : Prop := ∀ a < s.next, s.records a ≠ none → s.address a ≠ address

/-- The address that `calloc` gives to a call. -/
def Call.address : Call → Option Nat
  | .create _ _ address => address
  | _ => none

section
variable {s s' : State} {t : Nat} {os : Os}

theorem Addresses.keep (A : Addresses s) (haddress : s'.address = s.address)
    (hrecords : ∀ a, s'.records a ≠ none → s.records a ≠ none) : Addresses s' := by
  intro a b ha hb hsame
  rw [haddress] at hsame
  exact A a b (hrecords a ha) (hrecords b hb) hsame

theorem Addresses.alloc (A : Addresses s) (P : Places s) {address : Nat} (hfree : FreeAddress s address) :
    Addresses (s.alloc address).2 := by
  have haddress : ∀ b, (s.alloc address).2.address b = if b = s.next then address else s.address b :=
    fun b => Function.update_apply s.address s.next address b
  have hrecords : ∀ b, b ≠ s.next → (s.alloc address).2.records b ≠ none → s.records b ≠ none ∧ b < s.next := by
    intro b hb hrec
    have hold : s.records b ≠ none := by
      rw [show (s.alloc address).2.records b = s.records b from Function.update_of_ne hb _ _] at hrec
      exact hrec
    exact ⟨hold, Nat.lt_of_not_le fun h => hold (P.fresh b h)⟩
  intro a b ha hb hsame
  rw [haddress, haddress] at hsame
  by_cases hanext : a = s.next <;> by_cases hbnext : b = s.next
  · rw [hanext, hbnext]
  · rw [if_pos hanext, if_neg hbnext] at hsame
    exact absurd hsame.symm (hfree b (hrecords b hbnext hb).2 (hrecords b hbnext hb).1)
  · rw [if_neg hanext, if_pos hbnext] at hsame
    exact absurd hsame (hfree a (hrecords a hanext ha).2 (hrecords a hanext ha).1)
  · rw [if_neg hanext, if_neg hbnext] at hsame
    exact A a b (hrecords a hanext ha).1 (hrecords b hbnext hb).1 hsame

theorem Addresses.call (A : Addresses s) (P : Places s) {c : Call} (hfree : ∀ address ∈ c.address, FreeAddress s address)
    {out : Out} (h : call s t os c = some (out, s')) : Addresses s' := by
  cases c with
  | create name detached address =>
    cases address with
    | none =>
      cases h
      exact A
    | some address =>
      cases h
      exact (A.alloc P (hfree address rfl)).keep rfl fun _ ha => ha
  | self | rename name | exit =>
    cases h
    exact A.keep rfl fun _ ha => ha
  | join thread =>
    simp only [Thread.call, Option.bind_eq_bind, Option.bind_eq_some_iff] at h
    obtain ⟨_, _, _, _, _, _, h⟩ := h
    cases h
    exact A.keep rfl fun _ ha => ha
  | finish =>
    rw [Thread.call] at h
    split at h
    · cases h
      exact A
    · simp only [Option.bind_eq_bind, Option.bind_eq_some_iff] at h
      obtain ⟨_, _, h⟩ := h
      cases h
      exact A.keep rfl fun _ ha => ha

end

end IcecastCommon.Thread
