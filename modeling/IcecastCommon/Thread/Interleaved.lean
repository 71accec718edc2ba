import IcecastCommon.Thread.Sections
import IcecastCommon.Thread.Turns

/- Every interleaving of the threads. The invariant has the roles of the records, the tree and
   the mutex. A step keeps it under what the system promises, while there are memory and ids for the
   tree, and when the program joins only attached threads and each once, starts no thread while a
   joined one is being taken out, and neither joins a thread nor ends a detached one before the
   `thread_create` that started it has returned. -/
namespace IcecastCommon.Thread
open Avl Library

structure Safe (s : State) : Prop where
  core : Core s
  excl : Excl (fun os => os.pc.Holds) s.owner s.threads

/-- No thread that the system keeps has the identifier. -/
def Unused (s : State) (sys : Pthread) : Prop := ∀ u < s.count, ∀ p ∈ s.threads u, p.InUse → p.sys ≠ sys

/-- `pthread_create` gives no identifier, and `calloc` no address, that is in use. -/
def Promised : Event → State → Prop
  | .call _ c, s => ∀ address ∈ c.address, FreeAddress s address
  | .turn t answer, s => ∀ os ∈ s.threads t, os.pc.spawns → ∀ sys ∈ answer.created, Unused s sys

/-- There is memory for a node of the tree, and the counter of ids has not come to its end. -/
def Supplied : Event → State → Prop
  | .call _ _, _ => True
  | .turn t answer, s => ∀ os ∈ s.threads t,
    (os.pc = .inside .insert → answer.mem = true) ∧ (os.pc.numbers → s.nextThreadId + 1 ≠ 2 ^ 63)

/-- Another thread with the record, created attached, that nobody has joined or waits for. -/
def CanJoin (s : State) (t : Nat) (th : Block) (u : Nat) : Prop :=
  u ≠ t ∧ u ≠ 0 ∧ (∃ other ∈ s.threads u, other.thread = th ∧ other.detached = false ∧ other.joined = false) ∧
    ∀ v < s.count, ∀ p ∈ s.threads v, ∀ j ∈ p.pc.joining, j.2 ≠ u

/-- The program joins only threads that were created attached, and each once. -/
def JoinsOnce : Event → State → Prop
  | .call t (.join thread), s => ∃ th ∈ thread, ∃ u < s.count, CanJoin s t th u
  | _, _ => True

/-- No thread is started between a `pthread_join` and the `avl_delete` that follows it. -/
def StartsApart : Event → State → Prop
  | .call _ _, _ => True
  | .turn t answer, s => ∀ os ∈ s.threads t, os.pc.spawns → answer.created ≠ none →
    ∀ u < s.count, ∀ p ∈ s.threads u, ∀ d ∈ p.pc.deleting, d.2 = true

/-- The `thread_create` that made the record has returned. -/
def Returned (s : State) (th : Block) : Prop := ∀ u < s.count, ∀ p ∈ s.threads u, p.pc.naming ≠ some th

/-- No thread is joined, and no detached one ends, before the `thread_create` that started it has
returned. -/
def EndsLate : Event → State → Prop
  | .call _ (.join thread), s => ∀ th ∈ thread, Returned s th
  | .call t .exit, s => ∀ os ∈ s.threads t, os.detached = true → Returned s os.thread
  | .call t .finish, s => ∀ os ∈ s.threads t, os.detached = true → Returned s os.thread
  | _, _ => True

/-- The system and the program behave. -/
structure Allowed (e : Event) (s : State) : Prop where
  promised : Promised e s
  supplied : Supplied e s
  joinsOnce : JoinsOnce e s
  startsApart : StartsApart e s
  endsLate : EndsLate e s

instance (s : State) (sys : Pthread) : Decidable (Unused s sys) :=
  inferInstanceAs (Decidable (∀ u < s.count, ∀ p ∈ s.threads u, p.InUse → p.sys ≠ sys))

instance (s : State) (address : Nat) : Decidable (FreeAddress s address) :=
  inferInstanceAs (Decidable (∀ a < s.next, s.records a ≠ none → s.address a ≠ address))

instance (s : State) (th : Block) : Decidable (Returned s th) :=
  inferInstanceAs (Decidable (∀ u < s.count, ∀ p ∈ s.threads u, p.pc.naming ≠ some th))

instance (s : State) (t : Nat) (th : Block) (u : Nat) : Decidable (CanJoin s t th u) :=
  inferInstanceAs (Decidable (u ≠ t ∧ u ≠ 0 ∧
    (∃ other ∈ s.threads u, other.thread = th ∧ other.detached = false ∧ other.joined = false) ∧
    ∀ v < s.count, ∀ p ∈ s.threads v, ∀ j ∈ p.pc.joining, j.2 ≠ u))

instance (s : State) : (e : Event) → Decidable (Promised e s)
  | .call _ c => inferInstanceAs (Decidable (∀ address ∈ c.address, FreeAddress s address))
  | .turn t answer =>
    inferInstanceAs (Decidable (∀ os ∈ s.threads t, os.pc.spawns → ∀ sys ∈ answer.created, Unused s sys))

instance (s : State) : (e : Event) → Decidable (Supplied e s)
  | .call _ _ => inferInstanceAs (Decidable True)
  | .turn t answer => inferInstanceAs (Decidable (∀ os ∈ s.threads t,
      (os.pc = .inside .insert → answer.mem = true) ∧ (os.pc.numbers → s.nextThreadId + 1 ≠ 2 ^ 63)))

instance (s : State) : (e : Event) → Decidable (JoinsOnce e s)
  | .call t (.join thread) => inferInstanceAs (Decidable (∃ th ∈ thread, ∃ u < s.count, CanJoin s t th u))
  | .turn _ _ | .call _ (.create _ _ _) | .call _ .self | .call _ (.rename _) | .call _ .exit | .call _ .finish =>
    inferInstanceAs (Decidable True)

instance (s : State) : (e : Event) → Decidable (StartsApart e s)
  | .call _ _ => inferInstanceAs (Decidable True)
  | .turn t answer => inferInstanceAs (Decidable (∀ os ∈ s.threads t, os.pc.spawns → answer.created ≠ none →
      ∀ u < s.count, ∀ p ∈ s.threads u, ∀ d ∈ p.pc.deleting, d.2 = true))

instance (s : State) : (e : Event) → Decidable (EndsLate e s)
  | .call _ (.join thread) => inferInstanceAs (Decidable (∀ th ∈ thread, Returned s th))
  | .call t .exit | .call t .finish =>
    inferInstanceAs (Decidable (∀ os ∈ s.threads t, os.detached = true → Returned s os.thread))
  | .turn _ _ | .call _ (.create _ _ _) | .call _ .self | .call _ (.rename _) => inferInstanceAs (Decidable True)

instance (e : Event) (s : State) : Decidable (Allowed e s) :=
  decidable_of_iff (Promised e s ∧ Supplied e s ∧ JoinsOnce e s ∧ StartsApart e s ∧ EndsLate e s)
    ⟨fun h => ⟨h.1, h.2.1, h.2.2.1, h.2.2.2.1, h.2.2.2.2⟩,
      fun h => ⟨h.promised, h.supplied, h.joinsOnce, h.startsApart, h.endsLate⟩⟩

section
variable {s : State} {t : Nat} {os : Os}

theorem Returned.unnamed (P : Places s) {th : Block} (h : Returned s th) : Unnamed s th :=
  fun v p hv => h v (P.lt_count hv) p hv

/-- An identifier that the system does not keep is that of no thread that still has its record, since the
record of a thread that is joined is the last one to go. -/
theorem Unused.known (R : Roles s) {sys : Pthread} (h : Unused s sys)
    (hapart : ∀ u < s.count, ∀ p ∈ s.threads u, ∀ d ∈ p.pc.deleting, d.2 = true) {u : Nat} {p : Os}
    (hu : s.threads u = some p) (hknown : Known s p) : p.sys ≠ sys := by
  have hcount := R.places.lt_count hu
  by_cases hin : p.InUse
  · exact h u hcount p hu hin
  · have hrec := hknown.resolve_left hin
    exfalso
    cases hjoined : p.joined with
    | true =>
      obtain ⟨v, q, hv, hq⟩ := R.kept.pending u p hu hjoined hrec
      exact absurd (hapart v (R.places.lt_count hv) q hv _ hq) (by simp)
    | false =>
      obtain ⟨r, hr⟩ := Option.ne_none_iff_exists'.mp hrec
      obtain ⟨_, hdet, hgone⟩ := R.owned.right u p r hu hr
      have hended : p.detached = true ∧ p.pc = .ended := by
        rw [Os.InUse, hjoined] at hin
        simpa using hin
      have hu0 : u ≠ 0 := by
        intro h0
        subst h0
        exact absurd (R.owned.main p hu) (by simp [hended.1])
      have hfalse := hgone (by rw [hended.2]; trivial)
      rw [hdet hu0, hended.1] at hfalse
      exact absurd hfalse (by simp)

end

/-! The other threads. -/

/-- Every thread keeps the record it was started with. -/
def Stays (s s' : State) : Prop := ∀ u p, s.threads u = some p → ∃ q, s'.threads u = some q ∧ q.thread = p.thread

theorem Stays.refl (s : State) : Stays s s := fun _ p hu => ⟨p, hu, rfl⟩

theorem Stays.of_update {s s' : State} {t : Nat} {os : Os} {pc : Pc} (ht : s.threads t = some os)
    (h : s'.threads = Function.update s.threads t (some { os with pc := pc })) : Stays s s' := by
  intro u p hu
  by_cases hut : u = t
  · subst hut
    cases ht.symm.trans hu
    exact ⟨{ os with pc := pc }, by rw [h, Function.update_self], rfl⟩
  · exact ⟨p, by rw [h, Function.update_of_ne hut, hu], rfl⟩

theorem Starts.stays {s s' : State} {t : Nat} {os new : Os} (M : Starts s s' t os new) (P : Places s) :
    Stays s s' := by
  intro u p hu
  have hthreads := M.threads u
  by_cases hut : u = t
  · subst hut
    cases M.thread.symm.trans hu
    exact ⟨_, hthreads.trans (if_pos rfl), rfl⟩
  · rw [if_neg hut, if_neg (P.lt_count hu).ne, hu] at hthreads
    exact ⟨p, hthreads, rfl⟩

theorem Joining.stays {s s' : State} {t : Nat} {os : Os} {u : Nat} {other : Os} (M : Joining s s' t os u other) :
    Stays s s' := by
  intro v p hv
  have hthreads := M.threads v
  by_cases hvt : v = t
  · subst hvt
    cases M.thread.symm.trans hv
    exact ⟨_, hthreads.trans (if_pos rfl), rfl⟩
  · rw [if_neg hvt] at hthreads
    by_cases hvu : v = u
    · subst hvu
      cases M.target.symm.trans hv
      exact ⟨_, hthreads.trans (if_pos rfl), rfl⟩
    · rw [if_neg hvu, hv] at hthreads
      exact ⟨p, hthreads, rfl⟩

/-! A turn. -/

section
variable {s : State} {t : Nat} {os : Os}

/-- What a turn comes to: what `thread_self` gives is the thread's own record. -/
structure Turned (s s' : State) (os : Os) (out : Out) : Prop where
  safe : Safe s'
  stays : Stays s s'
  found : ∀ th, out = .self th → th = some os.thread

/-- The turn goes through. -/
def TurnKeeps (s : State) (t : Nat) (os : Os) (answer : Answer) : Prop :=
  ∃ out s', turn s t os answer = some (out, s') ∧ Turned s s' os out

/-- A turn that gives no record back. -/
theorem Turned.of_not_self {s s' : State} {os : Os} {out : Out} (S : Safe s') (hstays : Stays s s')
    (hout : ∀ th, out ≠ .self th) : Turned s s' os out :=
  ⟨S, hstays, fun th h => absurd h (hout th)⟩

theorem Safe.excl_goto (S : Safe s) (ht : s.threads t = some os) {p : Pc} (h : p.Holds ↔ os.pc.Holds) :
    Excl (fun os => os.pc.Holds) s.owner (Function.update s.threads t (some { os with pc := p })) :=
  S.excl.move ht h

theorem turn_lock (S : Safe s) (ht : s.threads t = some os) {b : Body} (hpc : os.pc = .lock b) (answer : Answer) :
    TurnKeeps s t os answer := by
  rw [TurnKeeps, turn, hpc]
  cases howner : s.owner with
  | some u => exact ⟨.quiet, s, rfl, .of_not_self S (.refl s) fun th => by simp⟩
  | none =>
    refine ⟨.quiet, _, rfl, .of_not_self ⟨(S.core.goto ht ⟨?_, ?_, Or.inl ?_, Or.inl ?_, ?_, ?_, ?_, ?_, ?_, ?_⟩
      ?_).owner _, ?_⟩ (.of_update ht rfl) fun th => by simp⟩
    · rw [hpc]
      cases b <;> rfl
    · rw [hpc]
      cases b <;> exact fun a h => Or.inl h
    · rw [hpc]
      cases b <;> rfl
    · rw [hpc]
      cases b <;> rfl
    · rw [hpc]
      exact fun h => absurd h (by simp)
    · rw [hpc]
      cases b <;> exact id
    · cases b <;> exact fun h => absurd h id
    · cases b <;> exact fun a h => absurd h (by simp [Pc.result])
    · exact fun a h => absurd h (by simp [Pc.naming])
    · rw [hpc]
      cases b with
      | scan after => cases after <;> exact Or.inl
      | delete th leaving => cases leaving <;> exact Or.inl
      | _ => exact Or.inl
    · rw [hpc]
      cases b <;> exact Iff.rfl
    · have E := S.excl
      rw [howner] at E
      exact E.take t (k := { os with pc := .inside b }) trivial

theorem turn_inside (S : Safe s) (ht : s.threads t = some os) {b : Body} (hpc : os.pc = .inside b) {answer : Answer}
    (hmem : b = .insert → answer.mem = true)
    (hid : ∀ th name detached, b = .nextId th name detached → s.nextThreadId + 1 ≠ 2 ^ 63) :
    TurnKeeps s t os answer := by
  obtain ⟨found, s', he, C, hthreads, howner⟩ := body_keeps S.core ht hpc hmem hid
  have hupdate : (s'.goto t os (.unlock b found)).threads =
      Function.update s.threads t (some { os with pc := .unlock b found }) := by
    rw [← hthreads]
    rfl
  refine ⟨.quiet, s'.goto t os (.unlock b found), ?_, ⟨C, ?_⟩, .of_update ht hupdate,
    fun a h => absurd h (by simp)⟩
  · rw [turn, hpc]
    simp only [he, Option.bind_eq_bind, Option.bind_some]
  · have E := S.excl_goto ht (p := .unlock b found) (by rw [hpc]; exact Iff.rfl)
    rw [← hupdate, ← howner] at E
    exact E

/-- Leaving the mutex changes no role. -/
theorem Moves.unlock (R : Roles s) (ht : s.threads t = some os) {b : Body} {found : Option Block}
    (hpc : os.pc = .unlock b found) : Moves s os (.back b found) := by
  have hfound := R.owned.found t os
  have hright := R.owned.right t os
  rw [hpc] at hfound hright
  refine ⟨?_, ?_, Or.inl ?_, Or.inl ?_, ?_, ?_, ?_, ?_, ?_, ?_⟩
  · rw [hpc]
    cases b <;> rfl
  · rw [hpc]
    cases b <;> exact fun a h => Or.inl h
  · rw [hpc]
    cases b <;> rfl
  · rw [hpc]
    cases b <;> rfl
  · rw [hpc]
    exact fun h => absurd h (by simp)
  · rw [hpc]
    cases b with
    | delete th leaving => cases leaving <;> exact id
    | _ => exact id
  · intro hgone r hr
    refine (hright r ht hr).2.2 ?_
    cases b with
    | delete th leaving => cases leaving <;> exact hgone
    | _ => exact hgone
  · intro a h
    refine hfound a ht ?_
    cases b <;> exact h
  · exact fun a h => absurd h (by simp [Pc.naming])
  · rw [hpc]
    cases b with
    | scan after => cases after <;> exact Or.inl
    | delete th leaving => cases leaving <;> exact Or.inl
    | _ => exact Or.inl

theorem turn_unlock (S : Safe s) (ht : s.threads t = some os) {b : Body} {found : Option Block}
    (hpc : os.pc = .unlock b found) (answer : Answer) : TurnKeeps s t os answer := by
  have M := Moves.unlock S.core.roles ht hpc
  refine ⟨.quiet, { s.goto t os (.back b found) with owner := none }, by rw [turn, hpc],
    ⟨(S.core.goto ht M ?_).owner none, ?_⟩, .of_update ht rfl, fun th h => absurd h (by simp)⟩
  · rw [hpc]
    exact Iff.rfl
  · exact S.excl.drop ht (by rw [hpc]; trivial) (k := { os with pc := .back b found }) id

theorem turn_back (S : Safe s) (ht : s.threads t = some os) {b : Body} {found : Option Block}
    (hpc : os.pc = .back b found) (answer : Answer) : TurnKeeps s t os answer := by
  have hout : ¬ os.pc.Holds := by rw [hpc]; exact id
  obtain ⟨out, s', pc, he, C, hthreads, hpc', howner, hself⟩ := leave_keeps S.core ht hpc
  refine ⟨out, s', by rw [turn, hpc]; exact he, ⟨C, ?_⟩, .of_update ht hthreads, hself⟩
  rw [hthreads, howner]
  exact S.excl_goto ht (iff_of_false hpc' hout)

theorem spawn_fails (S : Safe s) (ht : s.threads t = some os) {th : Block} (hpc : os.pc = .spawn th) :
    ∃ s', spawn s t os th none = some (.created none, s') ∧ Safe s' ∧ Stays s s' := by
  have hmaking : os.pc.making = some th := by rw [hpc]; rfl
  have R := S.core.roles
  obtain ⟨r, hr⟩ := Option.ne_none_iff_exists'.mp (R.places.made t os th ht hmaking)
  have hrec : ∀ b, Function.update s.records th none b = if b = th then none else s.records b :=
    fun b => Function.update_apply s.records th none b
  have F : Frees s ({ s with records := Function.update s.records th none }.goto t os .routine) t os .routine th := by
    refine ⟨ht, ?_, Pc.idle_routine, by simp, ?_, ?_, ?_, ?_, fun h => absurd h id, hrec, ?_, rfl, rfl, rfl,
      rfl, fun h => absurd h id⟩
    · rw [hpc]
      exact ⟨rfl, id, by simp⟩
    · exact fun b hb => (Option.some.inj (hmaking.symm.trans hb)).symm
    · rw [hpc]
      exact fun b l h => absurd h (by simp [Pc.deleting])
    · exact fun u p hu hne => ⟨fun h => hne (R.places.maker t os th u p ht hmaking hu h).symm,
        fun h => ((R.joins.deleting u p th hu h).2 t os ht).1 hmaking⟩
    · exact fun u p hu hp => absurd hp (R.places.apart t os th u p ht hmaking hu)
    · exact State.goto_threads _ t os _
  obtain ⟨tree, ps, G⟩ := S.core.registry
  refine ⟨_, ?_, ⟨⟨F.roles R, tree, ps, G.frame rfl fun p => ?_⟩,
    S.excl_goto ht (p := .routine) (by rw [hpc]; exact Iff.rfl)⟩, .of_update ht rfl⟩
  · rw [spawn, State.free, hr]
    rfl
  · rw [registered_goto (s := { s with records := Function.update s.records th none }) ht
      (by rw [hpc]; exact Iff.rfl) p]
    have hother : ∀ u q, s.threads u = some q → q.thread = p.block → Function.update s.records th none p.block =
        s.records p.block := by
      intro u q hu hq
      rw [hrec, if_neg (hq ▸ R.places.apart t os th u q ht hmaking hu)]
    constructor
    · intro h
      obtain ⟨u, q, r', hu, hstart, hthread, hr', hid⟩ := h
      exact ⟨u, q, r', hu, hstart, hthread, (hother u q hu hthread).symm.trans hr', hid⟩
    · intro h
      obtain ⟨u, q, r', hu, hstart, hthread, hr', hid⟩ := h
      exact ⟨u, q, r', hu, hstart, hthread, (hother u q hu hthread).trans hr', hid⟩

theorem spawn_starts (S : Safe s) (ht : s.threads t = some os) {th : Block} (hpc : os.pc = .spawn th) {sys : Pthread}
    (hnew : ∀ u p, s.threads u = some p → Known s p → p.sys ≠ sys) :
    ∃ s', spawn s t os th (some sys) = some (.quiet, s') ∧ Safe s' ∧ Stays s s' := by
  have hmaking : os.pc.making = some th := by rw [hpc]; rfl
  have hnumbering : os.pc.numbering = some th := by rw [hpc]; rfl
  obtain ⟨r, hr⟩ := Option.ne_none_iff_exists'.mp (S.core.roles.places.made t os th ht hmaking)
  have W : Writes s th r { r with sysThread := sys } := Writes.making S.core.roles ht hmaking hr fun _ => rfl
  have C := S.core.put W
  obtain ⟨new, hnewos⟩ : ∃ new : Os,
      new = { sys := sys, detached := r.detached, joined := false, thread := th, pc := .lock .insert } := ⟨_, rfl⟩
  have hknown : ∀ p, Known (s.put th { r with sysThread := sys }) p → Known s p := by
    intro p h
    refine h.imp_right fun h h' => h ?_
    have hput := s.put_records th { r with sysThread := sys } p.thread
    have hne : p.thread ≠ th := by
      intro h
      rw [h, hr] at h'
      exact absurd h' (by simp)
    rw [hput, if_neg hne, h']
  have htc := S.core.roles.places.lt_count ht
  have hunborn := S.core.roles.places.unborn s.count (Nat.le_refl _)
  have hthreads : ∀ u, Function.update (Function.update s.threads s.count (some new)) t
      (some { os with pc := .setname th false }) u =
      if u = t then some { os with pc := .setname th false } else if u = s.count then some new else s.threads u := by
    intro u
    rw [Function.update_apply, Function.update_apply]
  have M : Starts (s.put th { r with sysThread := sys })
      ({ (s.put th { r with sysThread := sys }).set s.count new with count := s.count + 1 }.goto t os (.setname th false))
      t os new := by
    subst hnewos
    refine ⟨ht, hpc, rfl, rfl, ?_, ?_, fun b => rfl, hthreads, rfl, rfl, rfl⟩
    · intro r' hr'
      have hput := s.put_records th { r with sysThread := sys } th
      rw [if_pos rfl] at hput
      cases hput.symm.trans hr'
      exact ⟨rfl, rfl⟩
    · exact fun u p hu hin => hnew u p hu (hknown p hin)
  obtain ⟨tree, ps, G⟩ := C.registry
  refine ⟨_, by rw [spawn, hr, hnewos]; rfl, ⟨⟨M.roles C.roles, tree, ps, G.frame rfl fun p => ?_⟩, ?_⟩,
    M.stays C.roles.places⟩
  · constructor
    · intro h
      obtain ⟨u, q, r', hu, hstart, hrest⟩ := h
      rcases M.which hu with h | h | h
      · rw [h.2] at hrest
        exact ⟨t, os, r', ht, by rw [hpc]; exact id, hrest⟩
      · rw [h.2, M.pc] at hstart
        exact absurd trivial hstart
      · exact ⟨u, q, r', h.2, hstart, hrest⟩
    · intro h
      obtain ⟨u, q, r', hu, hstart, hrest⟩ := h
      by_cases hut : u = t
      · subst hut
        cases ht.symm.trans hu
        exact ⟨u, { os with pc := .setname th false }, r', (hthreads u).trans (if_pos rfl), id, hrest⟩
      · have huc : u ≠ s.count := by
          intro h
          rw [h] at hu
          exact absurd (hunborn.symm.trans hu) (by simp)
        exact ⟨u, q, r', (hthreads u).trans (by rw [if_neg hut, if_neg huc]; exact hu), hstart, hrest⟩
  · have E := (S.excl.enter hunborn (k := new) (by rw [hnewos]; exact id)).move (l := os)
      (k := { os with pc := .setname th false }) (t := t) ?_ ?_
    · exact E
    · rw [Function.update_of_ne htc.ne]
      exact ht
    · rw [hpc]
      exact Iff.rfl

theorem turn_join (S : Safe s) (ht : s.threads t = some os) {th : Block} {u : Nat} (hpc : os.pc = .join th u)
    (answer : Answer) : TurnKeeps s t os answer := by
  have hjoining : os.pc.joining = some (th, u) := by rw [hpc]; rfl
  obtain ⟨hu, hu0, htarget⟩ := S.core.roles.joins.joining t os th u ht hjoining
  obtain ⟨other, hother⟩ := Option.ne_none_iff_exists'.mp hu
  obtain ⟨rfl, hdet, hjoined⟩ := htarget other hother
  rw [TurnKeeps, turn, hpc]
  simp only [hother, Option.bind_eq_bind, Option.bind_some, hjoined, Bool.false_eq_true, if_false]
  by_cases hended : other.pc = .ended
  · rw [if_pos hended]
    have hne : u ≠ t := by
      intro h
      subst h
      cases ht.symm.trans hother
      exact absurd (hpc.symm.trans hended) (by simp)
    have M : Joining s ((s.set u { other with joined := true }).goto t os (.lock (.delete other.thread false)))
        t os u other := by
      refine ⟨ht, hpc, hother, hended, fun b => rfl, fun v => ?_, rfl, rfl, rfl⟩
      rw [State.goto_threads, State.set_threads]
    obtain ⟨tree, ps, G⟩ := S.core.registry
    refine ⟨.quiet, _, rfl, .of_not_self ⟨⟨M.roles S.core.roles, tree, ps, G.frame rfl fun p => ?_⟩, ?_⟩ M.stays
      fun th => by simp⟩
    · constructor
      · intro h
        obtain ⟨v, q, r, hv, hstart, hrest⟩ := h
        rcases M.which hv with h | h | h
        · rw [h.2] at hrest
          exact ⟨t, os, r, ht, by rw [hpc]; exact id, hrest⟩
        · rw [h.2.2] at hrest hstart
          exact ⟨u, other, r, hother, hstart, hrest⟩
        · exact ⟨v, q, r, h.2.2, hstart, hrest⟩
      · intro h
        obtain ⟨v, q, r, hv, hstart, hrest⟩ := h
        have hthreads := M.threads v
        by_cases hvt : v = t
        · subst hvt
          cases ht.symm.trans hv
          exact ⟨v, _, r, hthreads.trans (if_pos rfl), id, hrest⟩
        · rw [if_neg hvt] at hthreads
          by_cases hvu : v = u
          · subst hvu
            cases hother.symm.trans hv
            exact ⟨v, _, r, hthreads.trans (if_pos rfl), hstart, hrest⟩
          · exact ⟨v, q, r, hthreads.trans (by rw [if_neg hvu]; exact hv), hstart, hrest⟩
    · refine (S.excl.move hother (k := { other with joined := true }) Iff.rfl).move (l := os) ?_ ?_
      · rw [Function.update_of_ne hne.symm]
        exact ht
      · rw [hpc]
        exact Iff.rfl
  · rw [if_neg hended]
    exact ⟨.quiet, s, rfl, .of_not_self S (.refl s) fun th => by simp⟩

/-- A thread that has named another one, or tries again, changes no role. -/
theorem Moves.setname {th : Block} {again : Bool} (hpc : os.pc = .setname th again) {pc : Pc}
    (h : pc = .routine ∨ pc = .setname th true) : Moves s os pc := by
  constructor
  case naming =>
    rw [hpc]
    rcases h with rfl | rfl
    · exact fun a h => absurd h (by simp [Pc.naming])
    · exact fun a h => h
  case making =>
    rw [hpc]
    rcases h with rfl | rfl <;> rfl
  case numbering => rcases h with rfl | rfl <;> exact fun a h => absurd h (by simp [Pc.numbering])
  case joining =>
    rw [hpc]
    rcases h with rfl | rfl <;> exact Or.inl rfl
  case deleting =>
    rw [hpc]
    rcases h with rfl | rfl <;> exact Or.inl rfl
  case ended =>
    rw [hpc]
    exact fun h => absurd h (by simp)
  case gone =>
    rw [hpc]
    exact fun h => absurd h id
  case left => rcases h with rfl | rfl <;> exact fun h => absurd h id
  case found => rcases h with rfl | rfl <;> exact fun a h => absurd h (by simp [Pc.result])
  case leaving => rcases h with rfl | rfl <;> exact fun h => absurd h id

/-- The thread that is named is there. -/
theorem turn_setname (S : Safe s) (ht : s.threads t = some os) {th : Block} {again : Bool}
    (hpc : os.pc = .setname th again) (answer : Answer) : TurnKeeps s t os answer := by
  have R := S.core.roles
  obtain ⟨u, p, hu, hu0, hthread, hjoined, hstays⟩ := R.named.there t os th ht (by rw [hpc]; rfl)
  have hrec : s.records th ≠ none := by
    rw [← hthread]
    cases hdet : p.detached with
    | true => exact R.owned.running u p hu fun hgone => hstays hdet (Pc.leaving_of_gone hgone)
    | false => exact R.owned.waiting u p hu hu0 hdet hjoined
  obtain ⟨r, hr⟩ := Option.ne_none_iff_exists'.mp hrec
  have hin : p.InUse := by
    refine ⟨?_, hjoined⟩
    cases hdet : p.detached with
    | true => exact Or.inr fun hended => hstays hdet (by rw [hended]; trivial)
    | false => exact Or.inl rfl
  have hthere : s.isThread r.sysThread = true := by
    have hsys := (R.owned.right u p r hu (by rw [hthread, hr])).1
    rw [State.isThread, List.any_eq_true]
    exact ⟨u, List.mem_range.mpr (R.places.lt_count hu), by simp [hu, hsys, hin]⟩
  have hkeeps : ∀ pc, pc = .routine ∨ pc = .setname th true → Safe (s.goto t os pc) := by
    intro pc h
    refine ⟨S.core.goto ht (.setname hpc h) ?_, S.excl_goto ht ?_⟩
    · rw [hpc]
      rcases h with rfl | rfl <;> exact Iff.rfl
    · rw [hpc]
      rcases h with rfl | rfl <;> exact Iff.rfl
  rw [TurnKeeps, turn, hpc]
  simp only [setname, hr, Option.bind_eq_bind, Option.bind_some, if_pos hthere]
  by_cases hdone : (answer.named || again) = true
  · rw [if_pos hdone]
    exact ⟨_, _, rfl, .of_not_self (hkeeps _ (Or.inl rfl)) (.of_update ht rfl) fun th => by simp⟩
  · rw [if_neg hdone]
    exact ⟨_, _, rfl, .of_not_self (hkeeps _ (Or.inr rfl)) (.of_update ht rfl) fun th => by simp⟩

theorem turn_keeps (S : Safe s) (ht : s.threads t = some os) {answer : Answer} (hok : Allowed (.turn t answer) s) :
    TurnKeeps s t os answer := by
  cases hpc : os.pc with
  | routine => exact ⟨.quiet, s, by rw [turn, hpc], .of_not_self S (.refl s) fun th => by simp⟩
  | ended => exact ⟨.quiet, s, by rw [turn, hpc], .of_not_self S (.refl s) fun th => by simp⟩
  | lock b => exact turn_lock S ht hpc answer
  | inside b =>
    obtain ⟨hmem, hid⟩ := hok.supplied os ht
    refine turn_inside S ht hpc (fun h => hmem (by rw [hpc, h])) fun th name detached h => hid ?_
    rw [hpc, h]
    rfl
  | unlock b found => exact turn_unlock S ht hpc answer
  | back b found => exact turn_back S ht hpc answer
  | join th u => exact turn_join S ht hpc answer
  | setname th again => exact turn_setname S ht hpc answer
  | spawn th =>
    have hspawns : os.pc.spawns = true := by rw [hpc]; rfl
    rw [TurnKeeps, turn, hpc]
    cases hcreated : answer.created with
    | none =>
      obtain ⟨s', he, S', hstays⟩ := spawn_fails S ht hpc
      exact ⟨_, s', he, .of_not_self S' hstays fun th => by simp⟩
    | some sys =>
      have hunused : Unused s sys := hok.promised os ht hspawns sys hcreated
      obtain ⟨s', he, S', hstays⟩ := spawn_starts S ht hpc fun u p hu =>
        hunused.known S.core.roles (hok.startsApart os ht hspawns (by rw [hcreated]; simp)) hu
      exact ⟨_, s', he, .of_not_self S' hstays fun th => by simp⟩

end

/-! A call. -/

section
variable {s : State} {t : Nat} {os : Os}

/-- What a call comes to. -/
def CallKeeps (s : State) (t : Nat) (os : Os) (c : Call) : Prop :=
  ∃ out s', call s t os c = some (out, s') ∧ Safe s' ∧ Stays s s' ∧ ∀ th, out ≠ .self th

theorem call_lock (S : Safe s) (ht : s.threads t = some os) (hpc : os.pc = .routine) (after : After)
    (hleaving : after = .exit → os.detached = true → Unnamed s os.thread) :
    Safe (s.goto t os (.lock (.scan after))) := by
  have F : os.pc.Free := by rw [hpc]; exact Pc.free_routine
  refine ⟨S.core.goto ht (.free F (Pc.free_lock_scan after) (fun a h => absurd h (by simp [Pc.result]))
    fun hout => Or.inr ?_) (by rw [hpc]; exact Iff.rfl), S.excl_goto ht (by rw [hpc]; exact Iff.rfl)⟩
  cases after with
  | exit => exact hleaving rfl
  | _ => exact absurd hout id

theorem call_create (S : Safe s) (ht : s.threads t = some os) (hpc : os.pc = .routine) (name : Encoding.Bytes)
    (detached : Bool) (address : Nat) :
    Safe ((s.alloc address).2.goto t os (.lock (.nextId s.next name detached))) := by
  have M : Makes s ((s.alloc address).2.goto t os (.lock (.nextId s.next name detached))) t os
      (.lock (.nextId s.next name detached)) :=
    ⟨ht, hpc, rfl, rfl, rfl, rfl, rfl, id, s.alloc_records address, (s.alloc address).2.goto_threads t os _, rfl, rfl,
      rfl, rfl, id⟩
  obtain ⟨tree, ps, G⟩ := S.core.registry
  refine ⟨⟨M.roles S.core.roles, tree, ps, G.frame rfl fun p => ?_⟩,
    S.excl_goto ht (by rw [hpc]; exact Iff.rfl)⟩
  have hown := (M.unused S.core.roles.places).2
  rw [registered_goto (s := (s.alloc address).2) ht (by rw [hpc]; exact Iff.rfl) p]
  constructor
  · intro h
    obtain ⟨u, q, r, hu, hstart, hthread, hr, hid⟩ := h
    have hne : p.block ≠ s.next := hthread ▸ (hown u q hu).1
    rw [s.alloc_records, if_neg hne] at hr
    exact ⟨u, q, r, hu, hstart, hthread, hr, hid⟩
  · intro h
    obtain ⟨u, q, r, hu, hstart, hthread, hr, hid⟩ := h
    have hne : p.block ≠ s.next := hthread ▸ (hown u q hu).1
    exact ⟨u, q, r, hu, hstart, hthread, by rw [s.alloc_records, if_neg hne, hr], hid⟩

/-- `pthread_join` finds the thread that has the record. -/
theorem joinable_eq (S : Safe s) {u : Nat} {other : Os} (hu : s.threads u = some other) {r : ThreadType}
    (hr : s.records other.thread = some r) (hdet : other.detached = false) (hjoined : other.joined = false) :
    s.joinable r.sysThread = some u := by
  have hcount := S.core.roles.places.lt_count hu
  have hsys := (S.core.roles.owned.right u other r hu hr).1
  have hfind : (s.joinable r.sysThread).isSome := by
    rw [State.joinable, List.find?_isSome]
    exact ⟨u, List.mem_range.mpr hcount, by simp [hu, hsys, hdet, hjoined]⟩
  obtain ⟨v, hv⟩ := Option.isSome_iff_exists.mp hfind
  have hmatch := List.find?_some hv
  rw [hv]
  cases hq : s.threads v with
  | none => exact absurd hmatch (by simp [hq])
  | some q =>
    simp only [hq, decide_eq_true_eq] at hmatch
    obtain ⟨hsame, hdet', hjoined'⟩ := hmatch
    exact congrArg some (S.core.roles.identifiers v q u other hq hu (Or.inl ⟨Or.inl hdet', hjoined'⟩)
      (Or.inl ⟨Or.inl hdet, hjoined⟩) (hsame.trans hsys))

theorem call_join (S : Safe s) (ht : s.threads t = some os) (hpc : os.pc = .routine) {thread : Option Block}
    (hok : Allowed (.call t (.join thread)) s) : CallKeeps s t os (.join thread) := by
  obtain ⟨th, rfl, u, _, _, hu0, ⟨other, hu, rfl, hdet, hjoined⟩, hnobody⟩ := hok.joinsOnce
  have R := S.core.roles
  obtain ⟨r, hr⟩ := Option.ne_none_iff_exists'.mp (R.owned.waiting u other hu hu0 hdet hjoined)
  refine ⟨.quiet, s.goto t os (.join other.thread u), ?_, ?_, .of_update ht rfl, fun th => by simp⟩
  · simp only [call, Option.bind_eq_bind, Option.bind_some, hr, joinable_eq S hu hr hdet hjoined]
  · have J : Joinable s other.thread u := by
      refine ⟨by rw [hu]; simp, hu0, fun p hp => ?_, fun v p b hv hj =>
        hnobody v (R.places.lt_count hv) p hv (b, u) hj rfl, (hok.endsLate other.thread rfl).unnamed R.places⟩
      cases hu.symm.trans hp
      exact ⟨rfl, hdet, hjoined⟩
    refine ⟨S.core.goto ht ⟨?_, ?_, Or.inr ⟨other.thread, u, rfl, J⟩, Or.inl ?_, ?_, ?_, ?_, ?_, ?_, ?_⟩ ?_,
      S.excl_goto ht (by rw [hpc]; exact Iff.rfl)⟩
    · rw [hpc]
      rfl
    · exact fun a h => absurd h (by simp [Pc.numbering])
    · rw [hpc]
      rfl
    · rw [hpc]
      exact fun h => absurd h (by simp)
    · rw [hpc]
      exact id
    · exact fun h => absurd h id
    · exact fun a h => absurd h (by simp [Pc.result])
    · exact fun a h => absurd h (by simp [Pc.naming])
    · exact fun h => absurd h id
    · rw [hpc]
      exact Iff.rfl

theorem call_finish (S : Safe s) (ht : s.threads t = some os) (hpc : os.pc = .routine)
    (hok : Allowed (.call t .finish) s) : CallKeeps s t os .finish := by
  have F : os.pc.Free := by rw [hpc]; exact Pc.free_routine
  have hstart : ¬ os.pc.Starting := by rw [hpc]; exact id
  obtain ⟨r, hr⟩ := Option.ne_none_iff_exists'.mp (S.core.roles.owned.running t os ht F.runs)
  have hunnamed : os.detached = true → Unnamed s os.thread := fun hdet =>
    (hok.endsLate os ht hdet).unnamed S.core.roles.places
  rw [CallKeeps, call]
  by_cases h0 : t = 0
  · rw [if_pos h0]
    exact ⟨.quiet, s, rfl, S, .refl s, fun th => by simp⟩
  · rw [if_neg h0, hr, Option.bind_eq_bind, Option.bind_some]
    refine ⟨.quiet, _, rfl, ⟨leaves_keeps S.core ht F hstart hr (Or.inr hunnamed), S.excl_goto ht ?_⟩, .of_update ht rfl,
      fun th => by simp⟩
    rw [hpc]
    cases r.detached <;> exact Iff.rfl

theorem call_keeps (S : Safe s) (ht : s.threads t = some os) (hpc : os.pc = .routine) {c : Call}
    (hok : Allowed (.call t c) s) : CallKeeps s t os c := by
  cases c with
  | create name detached address =>
    cases address with
    | some address =>
      exact ⟨.quiet, _, rfl, call_create S ht hpc name detached address, .of_update ht rfl, fun th => by simp⟩
    | none => exact ⟨.created none, s, rfl, S, .refl s, fun th => by simp⟩
  | self =>
    exact ⟨.quiet, _, rfl, call_lock S ht hpc .ret fun h => absurd h (by simp), .of_update ht rfl, fun th => by simp⟩
  | rename name =>
    exact ⟨.quiet, _, rfl, call_lock S ht hpc (.rename name) fun h => absurd h (by simp), .of_update ht rfl,
      fun th => by simp⟩
  | exit =>
    exact ⟨.quiet, _, rfl, call_lock S ht hpc .exit fun _ hdet => (hok.endsLate os ht hdet).unnamed S.core.roles.places,
      .of_update ht rfl, fun th => by simp⟩
  | join thread => exact call_join S ht hpc hok
  | finish => exact call_finish S ht hpc hok

/-- The thread that the event is about. -/
def Event.thread : Event → Nat
  | .call t _ => t
  | .turn t _ => t

/-- What a step comes to. -/
structure Stepped (s s' : State) (e : Event) (out : Out) : Prop where
  safe : Safe s'
  stays : Stays s s'
  found : ∀ th, out = .self th → ∃ os, s.threads e.thread = some os ∧ th = some os.thread

theorem Stepped.refl (S : Safe s) (e : Event) : Stepped s s e .quiet :=
  ⟨S, .refl s, fun th h => absurd h (by simp)⟩

/-- Every step that is allowed goes through and keeps the invariant. -/
theorem step_keeps (S : Safe s) {e : Event} (hok : Allowed e s) :
    ∃ out s', step e s = some (out, s') ∧ Stepped s s' e out := by
  cases e with
  | call t c =>
    rw [step]
    cases ht : s.threads t with
    | none => exact ⟨.quiet, s, rfl, .refl S _⟩
    | some os =>
      by_cases hpc : os.pc = .routine
      · obtain ⟨out, s', he, S', hstays, hself⟩ := call_keeps S ht hpc hok
        exact ⟨out, s', (if_pos hpc).trans he, S', hstays, fun th h => absurd h (hself th)⟩
      · exact ⟨.quiet, s, if_neg hpc, .refl S _⟩
  | turn t answer =>
    rw [step]
    cases ht : s.threads t with
    | none => exact ⟨.quiet, s, rfl, .refl S _⟩
    | some os =>
      obtain ⟨out, s', he, T⟩ := turn_keeps S ht hok
      exact ⟨out, s', he, T.safe, T.stays, fun th h => ⟨os, ht, T.found th h⟩⟩

/-- Every step that is allowed keeps the addresses apart. -/
theorem step_addresses (P : Places s) (A : Addresses s) {e : Event} (hok : Allowed e s) {out : Out} {s' : State}
    (h : step e s = some (out, s')) : Addresses s' := by
  cases e with
  | call t c =>
    rw [step] at h
    cases ht : s.threads t with
    | none =>
      rw [ht] at h
      cases h
      exact A
    | some os =>
      simp only [ht] at h
      split at h
      · exact A.call P hok.promised h
      · cases h
        exact A
  | turn t answer =>
    rw [step] at h
    cases ht : s.threads t with
    | none =>
      rw [ht] at h
      cases h
      exact A
    | some os =>
      rw [ht] at h
      rcases turn_works P ht h with ⟨_, rfl⟩ | W
      · exact A
      · exact A.keep W.address W.records

end

end IcecastCommon.Thread
