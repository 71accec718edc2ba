import IcecastCommon.Thread.Registered

/- The code under the mutex and what follows it. Each piece goes through and keeps the roles of
   the records and the tree together. -/
namespace IcecastCommon.Thread
open Avl Library

/-- The records have their roles, and the tree has the registered ones. -/
structure Core (s : State) : Prop where
  roles : Roles s
  registry : ∃ tree ps, Registry s tree ps

section
variable {s : State} {t : Nat} {os : Os} {pc : Pc}

/-- A thread that stays on its side of `avl_insert` keeps the registered records. -/
theorem registered_goto (ht : s.threads t = some os) (hstart : pc.Starting ↔ os.pc.Starting) (p : ThreadPtr) :
    Registered (s.goto t os pc) p ↔ Registered s p := by
  constructor
  · intro h
    obtain ⟨u, q, r, hu, hq⟩ := h
    rw [s.goto_threads] at hu
    by_cases hut : u = t
    · rw [if_pos hut, Option.some.injEq] at hu
      subst hu
      exact ⟨t, os, r, ht, fun h => hq.1 (hstart.mpr h), hq.2⟩
    · rw [if_neg hut] at hu
      exact ⟨u, q, r, hu, hq⟩
  · intro h
    obtain ⟨u, q, r, hu, hq⟩ := h
    by_cases hut : u = t
    · subst hut
      cases ht.symm.trans hu
      exact ⟨u, { os with pc := pc }, r, by rw [s.goto_threads, if_pos rfl], fun h => hq.1 (hstart.mp h), hq.2⟩
    · exact ⟨u, q, r, by rw [s.goto_threads, if_neg hut, hu], hq⟩

theorem Core.goto (C : Core s) (ht : s.threads t = some os) (M : Moves s os pc)
    (hstart : pc.Starting ↔ os.pc.Starting) : Core (s.goto t os pc) := by
  obtain ⟨tree, ps, G⟩ := C.registry
  exact ⟨C.roles.goto ht M, tree, ps, G.frame rfl (registered_goto ht hstart)⟩

theorem Core.owner (C : Core s) (owner : Option Nat) : Core { s with owner := owner } := by
  obtain ⟨tree, ps, G⟩ := C.registry
  exact ⟨C.roles.frame owner s.threadtree (Nat.le_refl _), tree, ps, G.root, G.stores, G.nodup, G.listed⟩

theorem Core.nextThreadId (C : Core s) {n : Nat} (hn : s.nextThreadId ≤ n) :
    Core { s with nextThreadId := n } := by
  obtain ⟨tree, ps, G⟩ := C.registry
  exact ⟨C.roles.frame s.owner s.threadtree hn, tree, ps, G.root, G.stores, G.nodup, G.listed⟩

theorem Core.put (C : Core s) {a : Block} {r r' : ThreadType} (W : Writes s a r r') : Core (s.put a r') := by
  obtain ⟨tree, ps, G⟩ := C.registry
  refine ⟨C.roles.put W, tree, ps, G.frame rfl fun p => ?_⟩
  constructor
  · intro h
    obtain ⟨u, q, r₀, hu, hstart, hthread, hr, hid⟩ := h
    obtain ⟨r₁, hr₁, hsame⟩ := W.threadId ⟨u, q, hu, Or.inl hthread⟩ hr
    exact ⟨u, q, r₁, hu, hstart, hthread, hr₁, hsame.trans hid⟩
  · intro h
    obtain ⟨u, q, r₀, hu, hstart, hthread, hr, hid⟩ := h
    have hput := s.put_records a r' p.block
    by_cases hpa : p.block = a
    · rw [if_pos hpa] at hput
      rw [hpa, W.before] at hr
      cases hr
      exact ⟨u, q, r', hu, hstart, hthread, hput, (W.id ⟨u, q, hu, Or.inl (hthread.trans hpa)⟩).trans hid⟩
    · rw [if_neg hpa] at hput
      exact ⟨u, q, r₀, hu, hstart, hthread, hput.trans hr, hid⟩

/-- A write by the thread that makes the record. -/
theorem Writes.making (R : Roles s) (ht : s.threads t = some os) {a : Block} (hmaking : os.pc.making = some a)
    {r r' : ThreadType} (hr : s.records a = some r)
    (hid : os.pc.numbering = some a → r'.threadId = r.threadId) : Writes s a r r' := by
  refine ⟨hr, fun u p hu hp => absurd hp (R.places.apart t os a u p ht hmaking hu), fun h => hid ?_⟩
  obtain ⟨u, p, hu, hp⟩ := h
  have hnum := hp.resolve_left (R.places.apart t os a u p ht hmaking hu)
  obtain rfl := R.places.maker t os a u p ht hmaking hu (Pc.making_of_numbering hnum)
  cases ht.symm.trans hu
  exact hnum

end

/-- A thread that runs, and has to do with no record but its own. -/
structure Pc.Free (pc : Pc) : Prop where
  making : pc.making = none
  numbering : pc.numbering = none
  joining : pc.joining = none
  deleting : pc.deleting = none
  naming : pc.naming = none
  runs : ¬ pc.Gone

theorem Pc.free_routine : Pc.routine.Free := ⟨rfl, rfl, rfl, rfl, rfl, id⟩
theorem Pc.free_inside_insert : (Pc.inside .insert).Free := ⟨rfl, rfl, rfl, rfl, rfl, id⟩
theorem Pc.free_unlock_insert : (Pc.unlock .insert none).Free := ⟨rfl, rfl, rfl, rfl, rfl, id⟩
theorem Pc.free_lock_scan (after : After) : (Pc.lock (.scan after)).Free := ⟨rfl, rfl, rfl, rfl, rfl, id⟩
theorem Pc.free_inside_scan (after : After) : (Pc.inside (.scan after)).Free := ⟨rfl, rfl, rfl, rfl, rfl, id⟩
theorem Pc.free_unlock_scan (after : After) (found : Option Block) : (Pc.unlock (.scan after) found).Free :=
  ⟨rfl, rfl, rfl, rfl, rfl, id⟩

theorem Moves.free {s : State} {os : Os} {pc : Pc} (F : os.pc.Free) (F' : pc.Free)
    (hfound : ∀ a, pc.result = some a → a = some os.thread)
    (hleaving : pc.Leaving → os.pc.Leaving ∨ (os.detached = true → Unnamed s os.thread)) : Moves s os pc := by
  refine ⟨F'.making.trans F.making.symm, fun a h => ?_, Or.inl (F'.joining.trans F.joining.symm),
    Or.inl (F'.deleting.trans F.deleting.symm), fun h => ?_, fun h => absurd h F.runs, fun h => absurd h F'.runs,
    hfound, fun a h => ?_, hleaving⟩
  · rw [F'.numbering] at h
    exact absurd h (by simp)
  · exact absurd (by rw [h]; trivial) F.runs
  · rw [F'.naming] at h
    exact absurd h (by simp)

/-! The code under the mutex. -/

section
variable {s : State} {t : Nat} {os : Os}

/-- What the code under the mutex comes to. -/
def BodyKeeps (s : State) (t : Nat) (os : Os) (answer : Answer) (b : Body) : Prop :=
  ∃ found s', body s os answer b = some (found, s') ∧ Core (s'.goto t os (.unlock b found)) ∧
    s'.threads = s.threads ∧ s'.owner = s.owner

theorem nextId_keeps (C : Core s) (ht : s.threads t = some os) {th : Block} {name : Encoding.Bytes}
    {detached : Bool} (hpc : os.pc = .inside (.nextId th name detached)) (answer : Answer)
    (hid : s.nextThreadId + 1 ≠ 2 ^ 63) : BodyKeeps s t os answer (.nextId th name detached) := by
  have hmaking : os.pc.making = some th := by rw [hpc]; rfl
  have hnumbering : os.pc.numbering = none := by rw [hpc]; rfl
  obtain ⟨r, hr⟩ := Option.ne_none_iff_exists'.mp (C.roles.places.made t os th ht hmaking)
  have W : Writes s th r { r with threadId := s.nextThreadId } :=
    Writes.making C.roles ht hmaking hr fun h => absurd (hnumbering.symm.trans h) (by simp)
  have C' := (C.put W).nextThreadId (Nat.le_succ s.nextThreadId)
  refine ⟨none, { s.put th { r with threadId := s.nextThreadId } with nextThreadId := s.nextThreadId + 1 }, ?_,
    C'.goto ht ⟨?_, ?_, Or.inl ?_, Or.inl ?_, ?_, ?_, ?_, ?_, ?_, ?_⟩ ?_, rfl, rfl⟩
  · rw [body, hr, Option.bind_eq_bind, Option.bind_some, if_neg hid]
  · rw [hpc]
    rfl
  · intro a ha
    cases ha
    refine Or.inr fun r' hr' => ?_
    -- The id is the counter as it was; every other id is below it.
    have hnew : ∀ b, b ≠ th → (s.put th { r with threadId := s.nextThreadId }).records b = s.records b :=
      fun b hb => Function.update_of_ne hb _ _
    have hsame : (s.put th { r with threadId := s.nextThreadId }).records th =
        some { r with threadId := s.nextThreadId } := Function.update_self _ _ _
    cases hsame.symm.trans hr'
    refine ⟨Nat.lt_succ_self _, fun b q hb hq hbid => ?_⟩
    by_contra hne
    exact absurd hbid (C.roles.ids.bound b q hb ((hnew b (Ne.symm hne)).symm.trans hq)).ne
  · rw [hpc]
    rfl
  · rw [hpc]
    rfl
  · rw [hpc]
    exact fun h => absurd h (by simp)
  · rw [hpc]
    exact id
  · exact fun h => absurd h id
  · exact fun a h => absurd h (by simp [Pc.result])
  · exact fun a h => absurd h (by simp [Pc.naming])
  · exact fun h => absurd h id
  · rw [hpc]
    exact Iff.rfl

theorem State.put_self {a : Block} {r : ThreadType} (hr : s.records a = some r) : s.put a r = s := by
  rw [State.put, ← hr, Function.update_eq_self]

theorem insert_keeps (C : Core s) (ht : s.threads t = some os) (hpc : os.pc = .inside .insert) {answer : Answer}
    (hmem : answer.mem = true) : BodyKeeps s t os answer .insert := by
  obtain ⟨tree, ps, G⟩ := C.registry
  have hfree : os.pc.Free := by rw [hpc]; exact Pc.free_inside_insert
  obtain ⟨r, hr⟩ := Option.ne_none_iff_exists'.mp (C.roles.owned.running t os ht hfree.runs)
  have hsys := (C.roles.owned.right t os r ht hr).1
  have hnot : ¬ Registered s ⟨os.thread, r.threadId⟩ := by
    intro h
    obtain ⟨u, p, _, hu, hstart, hthread, _⟩ := h
    obtain rfl := C.roles.places.own u p t os hu ht hthread
    cases ht.symm.trans hu
    exact hstart (by rw [hpc]; trivial)
  obtain ⟨result, tree', ps', he, G'⟩ := G.insert hnot
  have R' := C.roles.frame s.owner (some tree') (Nat.le_refl s.nextThreadId)
  refine ⟨none, { s with threadtree := some tree' }, ?_,
    ⟨R'.goto ht (.free hfree Pc.free_unlock_insert (fun a h => absurd h (by simp [Pc.result]))
      fun h => absurd h id),
      tree', ps', G' _ rfl fun q => ?_⟩, rfl, rfl⟩
  · rw [body, hr, G.root, hmem]
    simp only [Option.bind_eq_bind, Option.bind_some, he, ← hsys]
    rw [State.put_self hr]
  · have hthr := { s with threadtree := some tree' }.goto_threads t os (.unlock .insert none)
    constructor
    · intro h
      obtain ⟨u, p, r', hu, hstart, hthread, hr', hid⟩ := h
      by_cases hut : u = t
      · left
        rw [hthr, if_pos hut, Option.some.injEq] at hu
        subst hu
        obtain ⟨qa, qi⟩ := q
        cases hthread
        cases hr.symm.trans hr'
        cases hid
        rfl
      · rw [hthr, if_neg hut] at hu
        exact Or.inr ⟨u, p, r', hu, hstart, hthread, hr', hid⟩
    · intro h
      rcases h with rfl | h
      · exact ⟨t, { os with pc := .unlock .insert none }, r, by rw [hthr, if_pos rfl], id, rfl, hr, rfl⟩
      · obtain ⟨u, p, r', hu, hstart, hrest⟩ := h
        have hut : u ≠ t := by
          intro h
          subst h
          cases ht.symm.trans hu
          exact hstart (by rw [hpc]; trivial)
        exact ⟨u, p, r', by rw [hthr, if_neg hut]; exact hu, hstart, hrest⟩

theorem scan_keeps (C : Core s) (ht : s.threads t = some os) {after : After}
    (hpc : os.pc = .inside (.scan after)) (answer : Answer) : BodyKeeps s t os answer (.scan after) := by
  obtain ⟨tree, ps, G⟩ := C.registry
  have hfree : os.pc.Free := by rw [hpc]; exact Pc.free_inside_scan after
  have hstart : ¬ os.pc.Starting := by rw [hpc]; exact id
  refine ⟨some os.thread, s, G.scan C.roles ht hstart hfree.runs after answer, ?_, rfl, rfl⟩
  refine C.goto ht (.free hfree (Pc.free_unlock_scan after _) (fun a h => (Option.some.inj h).symm) fun h => Or.inl ?_)
    (iff_of_false id hstart)
  rw [hpc]
  cases after <;> exact h

/-- The record that a thread is about to delete is registered, and nobody else needs it. -/
structure Deletable (s : State) (t : Nat) (os : Os) (th : Block) (leaving : Bool) : Prop where
  record : ∃ r, s.records th = some r ∧ Registered s ⟨th, r.threadId⟩
  others : ∀ u p, s.threads u = some p → u ≠ t → p.pc.making ≠ some th ∧ p.pc.deleting ≠ some (th, false)
  owner : ∀ u p, s.threads u = some p → p.thread = th →
    u = t ∧ leaving = true ∧ (t ≠ 0 → os.detached = true) ∨ u ≠ t ∧ p.joined = true
  own : leaving = true → os.thread = th

theorem deletable_leaving (R : Roles s) (ht : s.threads t = some os) {th : Block}
    (hpc : os.pc = .inside (.delete th true)) : Deletable s t os th true := by
  have hdeleting : os.pc.deleting = some (th, true) := by rw [hpc]; rfl
  have hgone : ¬ os.pc.Gone := by rw [hpc]; exact id
  obtain ⟨rfl, hdet⟩ := R.owned.leaving t os th ht hdeleting
  obtain ⟨r, hr⟩ := Option.ne_none_iff_exists'.mp (R.owned.running t os ht hgone)
  refine ⟨⟨r, hr, t, os, r, ht, by rw [hpc]; exact id, rfl, hr, rfl⟩, fun u p hu hne => ⟨fun h => ?_, fun h => ?_⟩,
    fun u p hu hp => Or.inl ?_, fun _ => rfl⟩
  · exact R.places.apart u p os.thread t os hu h ht rfl
  · have hjoined := ((R.joins.deleting u p os.thread hu h).2 t os ht).2 rfl
    have hended := (R.joins.joined t os ht hjoined).1
    exact absurd (hpc.symm.trans hended) (by simp)
  · obtain rfl := R.places.own u p t os hu ht hp
    exact ⟨rfl, rfl, fun h0 => ((R.owned.right u os r ht hr).2.1 h0).symm.trans (hdet r hr)⟩

theorem deletable_joined (R : Roles s) (ht : s.threads t = some os) {th : Block}
    (hpc : os.pc = .inside (.delete th false)) : Deletable s t os th false := by
  have hdeleting : os.pc.deleting = some (th, false) := by rw [hpc]; rfl
  obtain ⟨hrec, hothers⟩ := R.joins.deleting t os th ht hdeleting
  obtain ⟨r, hr⟩ := Option.ne_none_iff_exists'.mp hrec
  obtain ⟨u, p, hu, hp⟩ := R.kept.held th hrec
  have hthread := hp.resolve_right (hothers u p hu).1
  have hended := (R.joins.joined u p hu ((hothers u p hu).2 hthread)).1
  refine ⟨⟨r, hr, u, p, r, hu, by rw [hended]; exact id, hthread, hr, rfl⟩,
    fun v q hv hne => ⟨(hothers v q hv).1, fun h => ?_⟩, fun v q hv hq => Or.inr ⟨?_, (hothers v q hv).2 hq⟩,
    fun h => absurd h (by simp)⟩
  · exact hne (R.joins.deleter v q th t os hv h ht hdeleting)
  · intro hvt
    subst hvt
    cases ht.symm.trans hv
    have hpc' := (R.joins.joined v os ht ((hothers v os ht).2 hq)).1
    exact absurd (hpc.symm.trans hpc') (by simp)

theorem delete_keeps (C : Core s) (ht : s.threads t = some os) {th : Block} {leaving : Bool}
    (hpc : os.pc = .inside (.delete th leaving)) (answer : Answer) :
    BodyKeeps s t os answer (.delete th leaving) := by
  obtain ⟨tree, ps, G⟩ := C.registry
  have D : Deletable s t os th leaving := by
    cases leaving with
    | true => exact deletable_leaving C.roles ht hpc
    | false => exact deletable_joined C.roles ht hpc
  obtain ⟨r, hr, hreg⟩ := D.record
  obtain ⟨tree', ps', he, hfreed, G'⟩ := G.delete C.roles.ids hreg
  have hrec : ∀ b, Function.update s.records th none b = if b = th then none else s.records b :=
    fun b => Function.update_apply s.records th none b
  have F : Frees s ({ s with threadtree := some tree', records := Function.update s.records th none }.goto t os
      (.unlock (.delete th leaving) none)) t os (.unlock (.delete th leaving) none) th := by
    refine ⟨ht, ?_, ⟨rfl, rfl, rfl, rfl, rfl⟩, by simp, ?_, ?_, D.others, ?_, ?_, hrec, ?_, rfl, rfl, rfl, rfl, ?_⟩
    · rw [hpc]
      exact ⟨rfl, id, by simp⟩
    · rw [hpc]
      exact fun b h => absurd h (by simp [Pc.making])
    · rw [hpc]
      intro b l h
      cases h
      rfl
    · intro u p hu hp
      refine (D.owner u p hu hp).imp_left fun h => ⟨h.1, ?_, h.2.2⟩
      rw [h.2.1]
      trivial
    · intro h
      cases leaving with
      | true => exact D.own rfl
      | false => exact absurd h id
    · exact State.goto_threads _ t os _
    · rw [hpc]
      cases leaving <;> exact id
  refine ⟨none, { s with threadtree := some tree', records := Function.update s.records th none }, ?_,
    ⟨F.roles C.roles, tree', ps', G' _ rfl fun q => ?_⟩, rfl, rfl⟩
  · rw [body, hr, G.root]
    simp only [Option.bind_eq_bind, Option.bind_some, he, hfreed, List.drop_left, freeThreads, State.free, hr]
  · rw [registered_goto (s := { s with threadtree := some tree', records := Function.update s.records th none })
      ht (by rw [hpc]; exact iff_of_false id id) q]
    constructor
    · intro h
      obtain ⟨u, p, r', hu, hstart, hthread, hr', hid⟩ := h
      have hne : q.block ≠ th := by
        intro h
        have hnone := hrec q.block
        rw [if_pos h] at hnone
        exact absurd (hnone.symm.trans hr') (by simp)
      have hsame := hrec q.block
      rw [if_neg hne] at hsame
      replace hr' := hsame.symm.trans hr'
      exact ⟨fun h => hne (by rw [h]), u, p, r', hu, hstart, hthread, hr', hid⟩
    · intro h
      obtain ⟨hne, u, p, r', hu, hstart, hthread, hr', hid⟩ := h
      have hblock : q.block ≠ th := by
        intro h
        rw [h, hr] at hr'
        cases hr'
        obtain ⟨qa, qi⟩ := q
        cases h
        cases hid
        exact hne rfl
      exact ⟨u, p, r', hu, hstart, hthread, (hrec q.block).trans (by rw [if_neg hblock, hr']), hid⟩

/-- The code under the mutex goes through. -/
theorem body_keeps (C : Core s) (ht : s.threads t = some os) {b : Body} (hpc : os.pc = .inside b) {answer : Answer}
    (hmem : b = .insert → answer.mem = true)
    (hid : ∀ th name detached, b = .nextId th name detached → s.nextThreadId + 1 ≠ 2 ^ 63) :
    BodyKeeps s t os answer b := by
  cases b with
  | nextId th name detached => exact nextId_keeps C ht hpc answer (hid th name detached rfl)
  | insert => exact insert_keeps C ht hpc (hmem rfl)
  | scan after => exact scan_keeps C ht hpc answer
  | delete th leaving => exact delete_keeps C ht hpc answer

end

/-! From the end of that code on. -/

section
variable {s : State} {t : Nat} {os : Os}

/-- What leaving the mutex comes to: a thread outside it, and for `thread_self` its own record. -/
def LeaveKeeps (s : State) (t : Nat) (os : Os) (found : Option Block) (b : Body) : Prop :=
  ∃ out s' pc, leave s t os found b = some (out, s') ∧ Core s' ∧
    s'.threads = Function.update s.threads t (some { os with pc := pc }) ∧ ¬ pc.Holds ∧ s'.owner = s.owner ∧
    ∀ th, out = .self th → th = some os.thread

theorem leave_nextId (C : Core s) (ht : s.threads t = some os) {th : Block} {name : Encoding.Bytes}
    {detached : Bool} {found : Option Block} (hpc : os.pc = .back (.nextId th name detached) found) :
    LeaveKeeps s t os found (.nextId th name detached) := by
  have hmaking : os.pc.making = some th := by rw [hpc]; rfl
  obtain ⟨r, hr⟩ := Option.ne_none_iff_exists'.mp (C.roles.places.made t os th ht hmaking)
  have W : Writes s th r { r with name := some name, detached := detached } :=
    Writes.making C.roles ht hmaking hr fun _ => rfl
  refine ⟨.quiet, (s.put th { r with name := some name, detached := detached }).goto t os (.spawn th), .spawn th,
    by rw [leave, hr]; rfl, (C.put W).goto ht ⟨?_, ?_, Or.inl ?_, Or.inl ?_, ?_, ?_, ?_, ?_, ?_, ?_⟩ ?_, rfl, id, rfl, ?_⟩
  · rw [hpc]
    rfl
  · rw [hpc]
    exact fun a h => Or.inl h
  · rw [hpc]
    rfl
  · rw [hpc]
    rfl
  · rw [hpc]
    exact fun h => absurd h (by simp)
  · rw [hpc]
    exact id
  · exact fun h => absurd h id
  · exact fun a h => absurd h (by simp [Pc.result])
  · exact fun a h => absurd h (by simp [Pc.naming])
  · exact fun h => absurd h id
  · rw [hpc]
    exact Iff.rfl
  · exact fun a h => absurd h (by simp)

/-- A thread that leaves, by the end of its routine or by `thread_exit`. -/
theorem leaves_keeps (C : Core s) (ht : s.threads t = some os) (F : os.pc.Free) (hstart : ¬ os.pc.Starting)
    {r : ThreadType} (hr : s.records os.thread = some r)
    (hleaving : os.pc.Leaving ∨ (os.detached = true → Unnamed s os.thread)) :
    Core (s.goto t os (if r.detached then .lock (.delete os.thread true) else .ended)) := by
  have hrunning : os.pc ≠ .ended := by
    intro h
    exact F.runs (by rw [h]; trivial)
  cases hdet : r.detached with
  | true =>
    rw [if_pos rfl]
    refine C.goto ht ⟨F.making.symm, fun a h => absurd h (by simp [Pc.numbering]), Or.inl F.joining.symm,
      Or.inr ⟨F.deleting, rfl, ?_⟩, fun h => absurd h hrunning, fun h => absurd h F.runs, fun h => absurd h id,
      fun a h => absurd h (by simp [Pc.result]), fun a h => absurd h (by simp [Pc.naming]), fun _ => hleaving⟩
      (iff_of_false id hstart)
    intro r' hr'
    cases hr.symm.trans hr'
    exact hdet
  | false =>
    rw [if_neg (by simp)]
    refine C.goto ht ⟨F.making.symm, fun a h => absurd h (by simp [Pc.numbering]), Or.inl F.joining.symm,
      Or.inl F.deleting.symm, fun _ => rfl, fun h => absurd h F.runs, fun _ => ?_,
      fun a h => absurd h (by simp [Pc.result]), fun a h => absurd h (by simp [Pc.naming]), fun _ => hleaving⟩
      (iff_of_false id hstart)
    intro r' hr'
    cases hr.symm.trans hr'
    exact hdet

theorem leave_scan (C : Core s) (ht : s.threads t = some os) {after : After} {found : Option Block}
    (hpc : os.pc = .back (.scan after) found) : LeaveKeeps s t os found (.scan after) := by
  have F : os.pc.Free := by rw [hpc]; exact ⟨rfl, rfl, rfl, rfl, rfl, id⟩
  have hstart : ¬ os.pc.Starting := by rw [hpc]; exact id
  have hfound : found = some os.thread := C.roles.owned.found t os found ht (by rw [hpc]; rfl)
  obtain ⟨r, hr⟩ := Option.ne_none_iff_exists'.mp (C.roles.owned.running t os ht F.runs)
  have hmoves : ∀ s : State, Moves s os .routine :=
    fun s => .free F Pc.free_routine (fun a h => absurd h (by simp [Pc.result])) fun h => absurd h id
  have hside : Pc.routine.Starting ↔ os.pc.Starting := iff_of_false id hstart
  cases after with
  | ret =>
    refine ⟨.self found, s.goto t os .routine, .routine, rfl, C.goto ht (hmoves s) hside, rfl, id, rfl, ?_⟩
    intro th h
    cases h
    exact hfound
  | rename name =>
    have W : Writes s os.thread r { r with name := some name } :=
      ⟨hr, fun _ _ _ _ => ⟨rfl, rfl⟩, fun _ => rfl⟩
    refine ⟨.quiet, (s.put os.thread { r with name := some name }).goto t os .routine, .routine, ?_,
      (C.put W).goto ht (hmoves _) hside, rfl, id, rfl, fun a h => absurd h (by simp)⟩
    rw [leave, hfound]
    simp only [Option.bind_eq_bind, Option.bind_some, hr]
  | exit =>
    refine ⟨.quiet, _, (if r.detached then .lock (.delete os.thread true) else .ended), ?_,
      leaves_keeps C ht F hstart hr (Or.inl (by rw [hpc]; trivial)), rfl, ?_, rfl, fun a h => absurd h (by simp)⟩
    · simp only [hfound, leave, Option.bind_eq_bind, Option.bind_some, hr]
    · cases r.detached <;> exact id

theorem leave_keeps (C : Core s) (ht : s.threads t = some os) {b : Body} {found : Option Block}
    (hpc : os.pc = .back b found) : LeaveKeeps s t os found b := by
  cases b with
  | nextId th name detached => exact leave_nextId C ht hpc
  | insert =>
    have F : os.pc.Free := by rw [hpc]; exact ⟨rfl, rfl, rfl, rfl, rfl, id⟩
    refine ⟨.quiet, s.goto t os .routine, .routine, rfl, C.goto ht (.free F Pc.free_routine ?_ fun h => absurd h id) ?_, rfl,
      id, rfl, ?_⟩
    · exact fun a h => absurd h (by simp [Pc.result])
    · rw [hpc]
      exact Iff.rfl
    · exact fun a h => absurd h (by simp)
  | scan after => exact leave_scan C ht hpc
  | delete th leaving =>
    refine ⟨.quiet, s.goto t os (if leaving then .ended else .routine), (if leaving then .ended else .routine), rfl,
      C.goto ht ?_ ?_, rfl, ?_, rfl, fun a h => absurd h (by simp)⟩
    · cases leaving with
      | true =>
        have hgone : os.pc.Gone := by rw [hpc]; trivial
        rw [if_pos rfl]
        refine ⟨?_, fun a h => absurd h (by simp [Pc.numbering]), Or.inl ?_, Or.inl ?_, fun _ => rfl, fun _ => trivial,
          fun _ r hr => (C.roles.owned.right t os r ht hr).2.2 hgone, fun a h => absurd h (by simp [Pc.result]),
          fun a h => absurd h (by simp [Pc.naming]), fun _ => Or.inl ?_⟩
        · rw [hpc]
          rfl
        · rw [hpc]
          rfl
        · rw [hpc]
          rfl
        · rw [hpc]
          trivial
      | false =>
        have F : os.pc.Free := by rw [hpc]; exact ⟨rfl, rfl, rfl, rfl, rfl, id⟩
        exact .free F Pc.free_routine (fun a h => absurd h (by simp [Pc.result])) fun h => absurd h id
    · rw [hpc]
      cases leaving <;> exact Iff.rfl
    · cases leaving <;> exact id

end

end IcecastCommon.Thread
