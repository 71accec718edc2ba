import IcecastCommon.Thread.Roles

/- The steps at which a record changes hands: it is made, it goes to the thread started with it,
   it is freed, and a thread is joined. -/
namespace IcecastCommon.Thread
open Avl Library
open Encoding (Bytes)

variable {s s' : State} {t : Nat} {os : Os} {pc : Pc} {a : Block}

/-- Nothing to do with any record but the thread's own. -/
structure Pc.Idle (pc : Pc) : Prop where
  making : pc.making = none
  numbering : pc.numbering = none
  joining : pc.joining = none
  deleting : pc.deleting = none
  result : pc.result = none

theorem Pc.idle_routine : Pc.routine.Idle := ⟨rfl, rfl, rfl, rfl, rfl⟩
theorem Pc.idle_setname (th : Block) (again : Bool) : (Pc.setname th again).Idle := ⟨rfl, rfl, rfl, rfl, rfl⟩

/-! A record is made. -/

/-- The record as `calloc` leaves it. -/
def ThreadType.zero : ThreadType := { threadId := 0, name := none, detached := false, sysThread := 0 }

theorem State.alloc_records (s : State) (address : Nat) (b : Block) :
    (s.alloc address).2.records b = if b = s.next then some .zero else s.records b :=
  Function.update_apply s.records s.next _ b

/-- A thread in the routine makes a record. -/
structure Makes (s s' : State) (t : Nat) (os : Os) (pc : Pc) : Prop where
  thread : s.threads t = some os
  before : os.pc = .routine
  making : pc.making = some s.next
  numbering : pc.numbering = none
  joining : pc.joining = none
  deleting : pc.deleting = none
  result : pc.result = none
  gone : ¬ pc.Gone
  records : ∀ b, s'.records b = if b = s.next then some .zero else s.records b
  threads : ∀ u, s'.threads u = if u = t then some { os with pc := pc } else s.threads u
  next : s'.next = s.next + 1
  count : s'.count = s.count
  nextThreadId : s'.nextThreadId = s.nextThreadId
  naming : pc.naming = none
  leaving : ¬ pc.Leaving

namespace Makes

theorem role (M : Makes s s' t os pc) : os.pc.making = none ∧ os.pc.joining = none ∧ os.pc.deleting = none ∧
    ¬ os.pc.Gone ∧ os.pc ≠ .ended := by
  rw [M.before]
  exact ⟨rfl, rfl, rfl, id, by simp⟩

theorem unused (_ : Makes s s' t os pc) (P : Places s) :
    s.records s.next = none ∧ ∀ u p, s.threads u = some p → p.thread ≠ s.next ∧ p.pc.making ≠ some s.next := by
  have hfresh := P.fresh s.next (Nat.le_refl _)
  exact ⟨hfresh, fun u p hu => ⟨(P.bound u p hu).ne, fun h => P.made u p s.next hu h hfresh⟩⟩

theorem places (M : Makes s s' t os pc) (P : Places s) : Places s' := by
  obtain ⟨hfresh, hunused⟩ := M.unused P
  have hrole := M.role
  obtain ⟨ht, _, hmaking, _, _, _, _, _, hrec, hthr, hnext, hcount, _⟩ := M
  constructor
  case fresh =>
    have := P.fresh
    grind
  case unborn =>
    have := P.unborn
    grind
  case bound =>
    have := P.bound
    grind
  case own =>
    have := P.own
    grind
  case made =>
    have := P.made
    grind
  case apart =>
    have := P.apart
    grind
  case maker =>
    have := P.maker
    grind

theorem owned (M : Makes s s' t os pc) (P : Places s) (W : Owned s) : Owned s' := by
  obtain ⟨hfresh, hunused⟩ := M.unused P
  have hrole := M.role
  obtain ⟨ht, _, _, _, _, hdeleting, hresult, hgone, hrec, hthr, _, _, _⟩ := M
  constructor
  case main =>
    have := W.main
    grind
  case right =>
    have := W.right
    grind
  case running =>
    have := W.running
    grind
  case waiting =>
    have := W.waiting
    grind
  case leaving =>
    have := W.leaving
    grind
  case found =>
    have := W.found
    grind

theorem joins (M : Makes s s' t os pc) (P : Places s) (J : Joins s) : Joins s' := by
  obtain ⟨hfresh, hunused⟩ := M.unused P
  have hrole := M.role
  obtain ⟨ht, _, hmaking, _, hjoining, hdeleting, _, _, hrec, hthr, _, _, _⟩ := M
  constructor
  case joined =>
    have := J.joined
    grind
  case joining =>
    have := J.joining
    grind
  case joiner =>
    have := J.joiner
    grind
  case deleting =>
    intro u p b hu hd
    have hold : s.threads u = some p := by grind
    obtain ⟨hb, hothers⟩ := J.deleting u p b hold hd
    have hne : b ≠ s.next := fun h => hb (h ▸ hfresh)
    exact ⟨by grind, by grind⟩
  case deleter =>
    have := J.deleter
    grind

theorem kept (M : Makes s s' t os pc) (P : Places s) (T : Kept s) : Kept s' := by
  obtain ⟨hfresh, hunused⟩ := M.unused P
  have hrole := M.role
  obtain ⟨ht, _, hmaking, _, _, hdeleting, _, _, hrec, hthr, _, _, _⟩ := M
  refine ⟨?_, ?_⟩
  · intro b hb
    by_cases hbn : b = s.next
    · exact ⟨t, { os with pc := pc }, by grind, by grind⟩
    · obtain ⟨u, p, hu, hp⟩ := T.held b (by grind)
      by_cases hut : u = t
      · exact ⟨t, { os with pc := pc }, by grind, by grind⟩
      · exact ⟨u, p, by grind, hp⟩
  · intro u p hu hj hb
    obtain ⟨q, hq, hqj, hthread⟩ : ∃ q, s.threads u = some q ∧ q.joined = true ∧ q.thread = p.thread := by
      grind
    have hne := (hunused u q hq).1
    obtain ⟨v, p', hv, hp'⟩ := T.pending u q hq hqj (by grind)
    refine ⟨v, p', ?_, by rw [← hthread]; exact hp'⟩
    grind

theorem ids (M : Makes s s' t os pc) (P : Places s) (I : Ids s) : Ids s' := by
  obtain ⟨hfresh, hunused⟩ := M.unused P
  obtain ⟨ht, _, _, hnumbering, _, _, _, _, hrec, hthr, _, _, hid⟩ := M
  have hnumbered : ∀ b, Numbered s' b → Numbered s b ∧ b ≠ s.next := by
    intro b hb
    obtain ⟨u, p, hu, hp⟩ := hb
    obtain ⟨q, hq, hqb⟩ : ∃ q, s.threads u = some q ∧ (q.thread = b ∨ q.pc.numbering = some b) := by grind
    have hmaking : q.pc.numbering = some b → q.pc.making = some b := Pc.making_of_numbering
    exact ⟨⟨u, q, hq, hqb⟩, by grind⟩
  refine ⟨fun b r hb hr => ?_, fun b r c r' hb hc hr hr' hsame => ?_⟩
  · obtain ⟨hb, hne⟩ := hnumbered b hb
    rw [hrec, if_neg hne] at hr
    rw [hid]
    exact I.bound b r hb hr
  · obtain ⟨hb, hne⟩ := hnumbered b hb
    obtain ⟨hc, hne'⟩ := hnumbered c hc
    rw [hrec, if_neg hne] at hr
    rw [hrec, if_neg hne'] at hr'
    exact I.distinct b r c r' hb hc hr hr' hsame

theorem identifiers (M : Makes s s' t os pc) (P : Places s) (I : Identifiers s) : Identifiers s' := by
  obtain ⟨hfresh, hunused⟩ := M.unused P
  have hrole := M.role
  obtain ⟨ht, _, _, _, _, _, _, _, hrec, hthr, _, _, _⟩ := M
  unfold Identifiers at *
  grind [Known, Os.InUse]

theorem named (M : Makes s s' t os pc) (N : Named s) : Named s' := by
  refine N.move M.thread M.threads (fun a h => ?_) (fun h => absurd h M.leaving) fun a w h => ?_
  · exact absurd (M.naming.symm.trans h) (by simp)
  · exact absurd (M.joining.symm.trans h) (by simp)

theorem roles (M : Makes s s' t os pc) (R : Roles s) : Roles s' :=
  ⟨M.places R.places, M.owned R.places R.owned, M.joins R.places R.joins, M.kept R.places R.kept,
    M.ids R.places R.ids, M.identifiers R.places R.identifiers, M.named R.named⟩

end Makes

/-! A record is freed. -/

/-- A thread frees a record that nobody else needs. -/
structure Frees (s s' : State) (t : Nat) (os : Os) (pc : Pc) (a : Block) : Prop where
  thread : s.threads t = some os
  before : os.pc.joining = none ∧ ¬ os.pc.Gone ∧ os.pc ≠ .ended
  idle : pc.Idle
  running : pc ≠ .ended
  making : ∀ b, os.pc.making = some b → b = a
  deleting : ∀ b leaving, os.pc.deleting = some (b, leaving) → b = a
  others : ∀ u p, s.threads u = some p → u ≠ t → p.pc.making ≠ some a ∧ p.pc.deleting ≠ some (a, false)
  owner : ∀ u p, s.threads u = some p → p.thread = a →
    u = t ∧ pc.Gone ∧ (t ≠ 0 → os.detached = true) ∨ u ≠ t ∧ p.joined = true
  gone : pc.Gone → os.thread = a
  records : ∀ b, s'.records b = if b = a then none else s.records b
  threads : ∀ u, s'.threads u = if u = t then some { os with pc := pc } else s.threads u
  next : s'.next = s.next
  count : s'.count = s.count
  nextThreadId : s'.nextThreadId = s.nextThreadId
  naming : pc.naming = none
  leaving : pc.Leaving → os.pc.Leaving

namespace Frees

theorem places (F : Frees s s' t os pc a) (P : Places s) : Places s' := by
  have hidle := F.idle.making
  obtain ⟨ht, _, _, _, hmaking, _, hothers, _, _, hrec, hthr, hnext, hcount, _⟩ := F
  constructor
  case fresh =>
    have := P.fresh
    grind
  case unborn =>
    have := P.unborn
    grind
  case bound =>
    have := P.bound
    grind
  case own =>
    have := P.own
    grind
  case made =>
    have := P.made
    grind
  case apart =>
    have := P.apart
    grind
  case maker =>
    have := P.maker
    grind

theorem owned (F : Frees s s' t os pc a) (J : Joins s) (W : Owned s) : Owned s' := by
  obtain ⟨_, _, _, hidle, hresult⟩ := F.idle
  obtain ⟨ht, _, _, _, _, _, _, howner, hgone, hrec, hthr, _, _, _⟩ := F
  constructor
  case main =>
    have := W.main
    grind
  case right =>
    have := W.right
    grind
  case running =>
    have := W.running
    have hjoined := J.joined
    have hended : Pc.ended.Gone := trivial
    grind
  case waiting =>
    have := W.waiting
    grind
  case leaving =>
    have := W.leaving
    grind
  case found =>
    have := W.found
    grind

theorem joins (F : Frees s s' t os pc a) (J : Joins s) : Joins s' := by
  obtain ⟨hmaking, _, hjoining, hdeleting, _⟩ := F.idle
  obtain ⟨ht, hbefore, _, _, _, hwas, hothers, howner, hgone, hrec, hthr, _, _, _⟩ := F
  constructor
  case joined =>
    have := J.joined
    grind
  case joining =>
    have := J.joining
    grind
  case joiner =>
    have := J.joiner
    grind
  case deleting =>
    intro u p b hu hd
    have hne : u ≠ t := by grind
    have hold : s.threads u = some p := by grind
    obtain ⟨hb, hother⟩ := J.deleting u p b hold hd
    exact ⟨by grind, by grind⟩
  case deleter =>
    have := J.deleter
    grind

theorem kept (F : Frees s s' t os pc a) (T : Kept s) : Kept s' := by
  obtain ⟨ht, _, _, _, hmaking, hdeleting, _, _, _, hrec, hthr, _, _, _⟩ := F
  refine ⟨fun b hb => ?_, fun u p hu hj hb => ?_⟩
  · obtain ⟨u, p, hu, hp⟩ := T.held b (by grind)
    by_cases hut : u = t
    · exact ⟨t, { os with pc := pc }, by grind, by grind⟩
    · exact ⟨u, p, by grind, hp⟩
  · obtain ⟨q, hq, hqj, hthread⟩ : ∃ q, s.threads u = some q ∧ q.joined = true ∧ q.thread = p.thread := by
      grind
    obtain ⟨v, p', hv, hp'⟩ := T.pending u q hq hqj (by grind)
    exact ⟨v, p', by grind, by rw [← hthread]; exact hp'⟩

theorem ids (F : Frees s s' t os pc a) (I : Ids s) : Ids s' := by
  have hidle := F.idle.numbering
  obtain ⟨ht, _, _, _, _, _, _, _, _, hrec, hthr, _, _, hid⟩ := F
  have hnumbered : ∀ b, Numbered s' b → Numbered s b := by
    intro b hb
    obtain ⟨u, p, hu, hp⟩ := hb
    obtain ⟨q, hq, hqb⟩ : ∃ q, s.threads u = some q ∧ (q.thread = b ∨ q.pc.numbering = some b) := by grind
    exact ⟨u, q, hq, hqb⟩
  have hold : ∀ b r, s'.records b = some r → s.records b = some r := by grind
  refine ⟨fun b r hb hr => ?_, fun b r c r' hb hc hr hr' hsame => ?_⟩
  · rw [hid]
    exact I.bound b r (hnumbered b hb) (hold b r hr)
  · exact I.distinct b r c r' (hnumbered b hb) (hnumbered c hc) (hold b r hr) (hold c r' hr') hsame

theorem identifiers (F : Frees s s' t os pc a) (I : Identifiers s) : Identifiers s' := by
  obtain ⟨ht, hbefore, _, _, _, _, _, _, _, hrec, hthr, _, _, _⟩ := F
  unfold Identifiers at *
  grind [Known, Os.InUse]

theorem named (F : Frees s s' t os pc a) (N : Named s) : Named s' := by
  refine N.move F.thread F.threads (fun a h => ?_) (fun h => Or.inl (F.leaving h)) fun a w h => ?_
  · exact absurd (F.naming.symm.trans h) (by simp)
  · exact absurd (F.idle.joining.symm.trans h) (by simp)

theorem roles (F : Frees s s' t os pc a) (R : Roles s) : Roles s' :=
  ⟨F.places R.places, F.owned R.joins R.owned, F.joins R.joins, F.kept R.kept, F.ids R.ids,
    F.identifiers R.identifiers, F.named R.named⟩

end Frees

/-! A thread is started with a record. -/

/-- The record that a thread made goes to the new thread. -/
structure Starts (s s' : State) (t : Nat) (os new : Os) : Prop where
  thread : s.threads t = some os
  before : os.pc = .spawn new.thread
  pc : new.pc = .lock .insert
  joined : new.joined = false
  record : ∀ r, s.records new.thread = some r → r.sysThread = new.sys ∧ r.detached = new.detached
  identifier : ∀ u p, s.threads u = some p → Known s p → p.sys ≠ new.sys
  records : ∀ b, s'.records b = s.records b
  threads : ∀ u, s'.threads u = if u = t then some { os with pc := .setname new.thread false } else
    if u = s.count then some new else s.threads u
  next : s'.next = s.next
  count : s'.count = s.count + 1
  nextThreadId : s'.nextThreadId = s.nextThreadId

namespace Starts
variable {new : Os}

theorem role (M : Starts s s' t os new) : os.pc.making = some new.thread ∧ os.pc.numbering = some new.thread ∧
    os.pc.joining = none ∧ os.pc.deleting = none ∧ ¬ os.pc.Gone ∧ os.pc ≠ .ended := by
  rw [M.before]
  exact ⟨rfl, rfl, rfl, rfl, id, by simp⟩

theorem newRole (M : Starts s s' t os new) : new.pc.making = none ∧ new.pc.numbering = none ∧
    new.pc.joining = none ∧ new.pc.deleting = none ∧ ¬ new.pc.Gone ∧ new.pc.result = none := by
  rw [M.pc]
  exact ⟨rfl, rfl, rfl, rfl, id, rfl⟩

theorem place (M : Starts s s' t os new) (P : Places s) : t < s.count ∧ s.threads s.count = none ∧
    new.thread < s.next := by
  have ht := M.thread
  refine ⟨?_, P.unborn _ (Nat.le_refl _), ?_⟩
  · have hunborn := P.unborn t
    grind
  · have hmade := P.made t os new.thread ht M.role.1
    have hfresh := P.fresh new.thread
    grind

/-- Which thread it is. -/
theorem which (M : Starts s s' t os new) {u : Nat} {p : Os} (hu : s'.threads u = some p) :
    u = t ∧ p = { os with pc := .setname new.thread false } ∨ u = s.count ∧ p = new ∨ u ≠ t ∧ s.threads u = some p := by
  have hthr := M.threads u
  grind

theorem places (M : Starts s s' t os new) (P : Places s) : Places s' := by
  have hrole := M.role
  have hnew := M.newRole
  have hplace := M.place P
  have hidle := (Pc.idle_setname new.thread false).making
  have hwhich : ∀ u p, s'.threads u = some p → _ := fun u p hu => M.which hu
  have hapart := fun u p => P.apart t os new.thread u p M.thread hrole.1
  have hmaker := fun u p hu => P.maker t os new.thread u p M.thread hrole.1 hu
  obtain ⟨ht, _, _, _, _, _, hrec, hthr, hnext, hcount, _⟩ := M
  constructor
  case fresh =>
    have := P.fresh
    grind
  case unborn =>
    have := P.unborn
    grind
  case bound =>
    have := P.bound
    grind
  case own =>
    have hown := P.own
    intro u p v q hu hv h
    rcases hwhich u p hu with hu | hu | hu <;> rcases hwhich v q hv with hv | hv | hv <;> grind
  case made =>
    have := P.made
    grind
  case apart =>
    have hold := P.apart
    intro u p b v q hu hb hv
    rcases hwhich u p hu with hu | hu | hu <;> rcases hwhich v q hv with hv | hv | hv <;> grind
  case maker =>
    have hold := P.maker
    intro u p b v q hu hb hv hb'
    rcases hwhich u p hu with hu | hu | hu <;> rcases hwhich v q hv with hv | hv | hv <;> grind

theorem owned (M : Starts s s' t os new) (P : Places s) (W : Owned s) : Owned s' := by
  have hrole := M.role
  have hnew := M.newRole
  have hplace := M.place P
  have hmade := P.made t os new.thread M.thread hrole.1
  obtain ⟨hmaking, _, hjoining, hdeleting, hresult⟩ := Pc.idle_setname new.thread false
  have hgone : ¬ (Pc.setname new.thread false).Gone := id
  obtain ⟨ht, _, _, _, hrecord, _, hrec, hthr, _, _, _⟩ := M
  constructor
  case main =>
    have := W.main
    grind
  case right =>
    have := W.right
    grind
  case running =>
    have := W.running
    grind
  case waiting =>
    have := W.waiting
    grind
  case leaving =>
    have := W.leaving
    grind
  case found =>
    have := W.found
    grind

theorem joins (M : Starts s s' t os new) (P : Places s) (J : Joins s) : Joins s' := by
  have hrole := M.role
  have hnew := M.newRole
  have hplace := M.place P
  obtain ⟨hmaking, _, hjoining, hdeleting, hresult⟩ := Pc.idle_setname new.thread false
  obtain ⟨ht, _, _, hjoined, _, _, hrec, hthr, _, _, _⟩ := M
  constructor
  case joined =>
    have := J.joined
    grind
  case joining =>
    have := J.joining
    grind
  case joiner =>
    have hold : ∀ u p b v, s'.threads u = some p → p.pc.joining = some (b, v) → s.threads u = some p := by
      grind
    exact fun u p b v u' p' b' hu hj hu' hj' => J.joiner u p b v u' p' b' (hold u p b v hu hj) hj
      (hold u' p' b' v hu' hj') hj'
  case deleting =>
    intro u p b hu hd
    have hold : s.threads u = some p := by grind
    obtain ⟨hb, hothers⟩ := J.deleting u p b hold hd
    have hne := (hothers t os ht).1
    exact ⟨by grind, by grind⟩
  case deleter =>
    have := J.deleter
    grind

theorem kept (M : Starts s s' t os new) (P : Places s) (T : Kept s) : Kept s' := by
  have hrole := M.role
  have hplace := M.place P
  obtain ⟨ht, _, _, hjoined, _, _, hrec, hthr, _, _, _⟩ := M
  refine ⟨fun b hb => ?_, fun u p hu hj hb => ?_⟩
  · obtain ⟨u, p, hu, hp⟩ := T.held b (by grind)
    by_cases hut : u = t
    · by_cases hb : b = new.thread
      · exact ⟨s.count, new, by grind, Or.inl hb.symm⟩
      · exact ⟨t, { os with pc := .setname new.thread false }, by grind, by grind⟩
    · exact ⟨u, p, by grind, hp⟩
  · obtain ⟨q, hq, hqj, hthread⟩ : ∃ q, s.threads u = some q ∧ q.joined = true ∧ q.thread = p.thread := by
      grind
    obtain ⟨v, p', hv, hp'⟩ := T.pending u q hq hqj (by grind)
    exact ⟨v, p', by grind, by rw [← hthread]; exact hp'⟩

theorem ids (M : Starts s s' t os new) (I : Ids s) : Ids s' := by
  have hrole := M.role
  have hnew := M.newRole
  have hidle := (Pc.idle_setname new.thread false).numbering
  obtain ⟨ht, _, _, _, _, _, hrec, hthr, _, _, hid⟩ := M
  have hnumbered : ∀ b, Numbered s' b → Numbered s b := by
    intro b hb
    obtain ⟨u, p, hu, hp⟩ := hb
    obtain ⟨v, q, hq, hqb⟩ : ∃ v q, s.threads v = some q ∧ (q.thread = b ∨ q.pc.numbering = some b) := by
      by_cases hut : u = t
      · exact ⟨t, os, ht, by grind⟩
      · by_cases hun : u = s.count
        · exact ⟨t, os, ht, by grind⟩
        · exact ⟨u, p, by grind, hp⟩
    exact ⟨v, q, hq, hqb⟩
  refine ⟨fun b r hb hr => ?_, fun b r c r' hb hc hr hr' hsame => ?_⟩
  · rw [hid]
    exact I.bound b r (hnumbered b hb) (by rw [← hrec, hr])
  · exact I.distinct b r c r' (hnumbered b hb) (hnumbered c hc) (by rw [← hrec, hr]) (by rw [← hrec, hr']) hsame

theorem identifiers (M : Starts s s' t os new) (P : Places s) (I : Identifiers s) : Identifiers s' := by
  have hrole := M.role
  have hplace := M.place P
  obtain ⟨ht, _, _, _, _, hident, hrec, hthr, _, _, _⟩ := M
  unfold Identifiers at *
  grind [Known, Os.InUse]

/-- The thread that is going to be named is the new one, which nobody can have joined. -/
theorem named (M : Starts s s' t os new) (P : Places s) (J : Joins s) (N : Named s) : Named s' := by
  obtain ⟨hlt, hunborn, _⟩ := M.place P
  have hmaking := M.role.1
  have hnew : s'.threads s.count = some new := (M.threads s.count).trans (by rw [if_neg hlt.ne', if_pos rfl])
  have hold : ∀ u p, s.threads u = some p → u ≠ t → s'.threads u = some p := by
    intro u p hu hut
    rw [M.threads, if_neg hut, if_neg (P.lt_count hu).ne, hu]
  -- A thread that is not named for the first time was there before, and the naming thread has no record to read.
  have hjoin : ∀ u p a w, s'.threads u = some p → p.pc.joining = some (a, w) → s.threads u = some p := by
    intro u p a w hu hj
    rcases M.which hu with h | h | h
    · rw [h.2] at hj
      exact absurd hj (by simp [Pc.joining])
    · rw [h.2, M.pc] at hj
      exact absurd hj (by simp [Pc.joining])
    · exact h.2
  constructor
  case there =>
    intro u p a hu ha
    rcases M.which hu with h | h | h
    · obtain ⟨rfl, rfl⟩ := h
      obtain rfl : new.thread = a := Option.some.inj ha
      exact ⟨s.count, new, hnew, by omega, rfl, M.joined, fun _ => by rw [M.pc]; exact id⟩
    · rw [h.2, M.pc] at ha
      exact absurd ha (by simp [Pc.naming])
    · obtain ⟨v, q, hv, hv0, hthread, hjoined, hstays⟩ := N.there u p a h.2 ha
      by_cases hvt : v = t
      · subst hvt
        cases M.thread.symm.trans hv
        exact ⟨v, _, (M.threads v).trans (if_pos rfl), hv0, hthread, hjoined, fun _ => id⟩
      · exact ⟨v, q, hold v q hv hvt, hv0, hthread, hjoined, hstays⟩
  case waits =>
    intro u p a w v q hu hj hv hname
    have hwaits := hjoin u p a w hu hj
    rcases M.which hv with h | h | h
    · obtain ⟨rfl, rfl⟩ := h
      obtain rfl : new.thread = a := Option.some.inj hname
      obtain ⟨hw, _, htarget⟩ := J.joining u p new.thread w hwaits hj
      obtain ⟨other, hother⟩ := Option.ne_none_iff_exists'.mp hw
      exact P.apart v os new.thread w other M.thread hmaking hother (htarget other hother).1
    · rw [h.2, M.pc] at hname
      exact absurd hname (by simp [Pc.naming])
    · exact N.waits u p a w v q hwaits hj h.2 hname

theorem roles (M : Starts s s' t os new) (R : Roles s) : Roles s' :=
  ⟨M.places R.places, M.owned R.places R.owned, M.joins R.places R.joins, M.kept R.places R.kept,
    M.ids R.ids, M.identifiers R.places R.identifiers, M.named R.places R.joins R.named⟩

end Starts

/-! A thread is joined. -/

/-- A thread joins one that has ended, and goes on to delete its record. -/
structure Joining (s s' : State) (t : Nat) (os : Os) (u : Nat) (other : Os) : Prop where
  thread : s.threads t = some os
  before : os.pc = .join other.thread u
  target : s.threads u = some other
  ended : other.pc = .ended
  records : ∀ b, s'.records b = s.records b
  threads : ∀ v, s'.threads v = if v = t then some { os with pc := .lock (.delete other.thread false) } else
    if v = u then some { other with joined := true } else s.threads v
  next : s'.next = s.next
  count : s'.count = s.count
  nextThreadId : s'.nextThreadId = s.nextThreadId

namespace Joining
variable {u : Nat} {other : Os}

theorem role (M : Joining s s' t os u other) : os.pc.making = none ∧ os.pc.numbering = none ∧
    os.pc.joining = some (other.thread, u) ∧ os.pc.deleting = none ∧ ¬ os.pc.Gone ∧ os.pc ≠ .ended ∧ u ≠ t := by
  have hne : u ≠ t := by
    intro h
    have hsame := M.target
    rw [h, M.thread] at hsame
    have hpc := M.before
    rw [Option.some.inj hsame, M.ended] at hpc
    exact absurd hpc (by simp)
  rw [M.before]
  exact ⟨rfl, rfl, rfl, rfl, id, by simp, hne⟩

/-- The place it comes to. -/
theorem newRole (th : Block) : (Pc.lock (.delete th false)).making = none ∧
    (Pc.lock (.delete th false)).numbering = none ∧ (Pc.lock (.delete th false)).joining = none ∧
    (Pc.lock (.delete th false)).deleting = some (th, false) ∧ ¬ (Pc.lock (.delete th false)).Gone ∧
    (Pc.lock (.delete th false)).result = none :=
  ⟨rfl, rfl, rfl, rfl, id, rfl⟩

/-- What a thread was before. -/
theorem which (M : Joining s s' t os u other) {v : Nat} {p : Os} (hv : s'.threads v = some p) :
    v = t ∧ p = { os with pc := .lock (.delete other.thread false) } ∨
      v = u ∧ v ≠ t ∧ p = { other with joined := true } ∨ v ≠ t ∧ v ≠ u ∧ s.threads v = some p := by
  have hthr := M.threads v
  grind

/-- Nobody makes a record that did not before. -/
theorem maker (M : Joining s s' t os u other) {v : Nat} {p : Os} {b : Block} (hv : s'.threads v = some p)
    (hb : p.pc.making = some b) : ∃ q, s.threads v = some q ∧ q.pc.making = some b := by
  rcases M.which hv with h | h | h
  · rw [h.2] at hb
    exact absurd hb (by simp [(newRole other.thread).1])
  · refine ⟨other, h.1 ▸ M.target, ?_⟩
    rw [h.2.2] at hb
    exact hb
  · exact ⟨p, h.2.2, hb⟩

theorem places (M : Joining s s' t os u other) (P : Places s) : Places s' := by
  have hmaker : ∀ v p b, s'.threads v = some p → p.pc.making = some b → _ := fun v p b => M.maker
  have hthread : ∀ v p, s'.threads v = some p → ∃ q, s.threads v = some q ∧ q.thread = p.thread := by
    intro v p hv
    have ht := M.thread
    have hu := M.target
    have hwhich := M.which hv
    grind
  obtain ⟨ht, _, hu, _, hrec, hthr, hnext, hcount, _⟩ := M
  constructor
  case fresh =>
    have := P.fresh
    grind
  case unborn =>
    have := P.unborn
    grind
  case bound =>
    have := P.bound
    grind
  case own =>
    have := P.own
    grind
  case made =>
    have := P.made
    grind
  case apart =>
    intro v p b w q hv hb hw
    obtain ⟨p', hp, hpb⟩ := hmaker v p b hv hb
    obtain ⟨q', hq, hthread⟩ := hthread w q hw
    rw [← hthread]
    exact P.apart v p' b w q' hp hpb hq
  case maker =>
    intro v p b w q hv hb hw hb'
    obtain ⟨p', hp, hpb⟩ := hmaker v p b hv hb
    obtain ⟨q', hq, hqb⟩ := hmaker w q b hw hb'
    exact P.maker v p' b w q' hp hpb hq hqb

theorem owned (M : Joining s s' t os u other) (W : Owned s) : Owned s' := by
  have hrole := M.role
  obtain ⟨_, _, _, hdeleting, hgone, hresult⟩ := newRole other.thread
  obtain ⟨ht, _, hu, hended, hrec, hthr, _, _, _⟩ := M
  constructor
  case main =>
    have := W.main
    grind
  case right =>
    have := W.right
    grind
  case running =>
    have := W.running
    grind
  case waiting =>
    have := W.waiting
    grind
  case leaving =>
    have := W.leaving
    grind
  case found =>
    have := W.found
    grind

theorem joins (M : Joining s s' t os u other) (P : Places s) (W : Owned s) (J : Joins s) : Joins s' := by
  have hrole := M.role
  have hnew := newRole other.thread
  obtain ⟨_, hu0, htarget⟩ := J.joining t os other.thread u M.thread hrole.2.2.1
  obtain ⟨_, hdet, hjoined⟩ := htarget other M.target
  have hrecord := W.waiting u other M.target hu0 hdet hjoined
  have hended := M.ended
  have hdelete : other.pc.deleting = none ∧ other.pc.joining = none := by
    rw [hended]
    exact ⟨rfl, rfl⟩
  have hwhich : ∀ v p, s'.threads v = some p → _ := fun v p hv => M.which hv
  -- Only the joining thread has come to delete anything, and nobody has come to join.
  have hwait : ∀ v p b w, s'.threads v = some p → p.pc.joining = some (b, w) → v ≠ t ∧ s.threads v = some p := by
    intro v p b w hv hj
    rcases hwhich v p hv with h | h | h <;> grind
  have hstay : ∀ v p b, s'.threads v = some p → p.pc.deleting = some (b, false) →
      v = t ∧ b = other.thread ∨ s.threads v = some p := by
    intro v p b hv hd
    rcases hwhich v p hv with h | h | h <;> grind
  have hfirst : ∀ v p, s.threads v = some p → p.pc.deleting ≠ some (other.thread, false) := by
    intro v p hv hd
    have hj := ((J.deleting v p other.thread hv hd).2 u other M.target).2 rfl
    rw [hjoined] at hj
    exact absurd hj (by simp)
  constructor
  case joined =>
    intro v p hv hj
    have hold := J.joined v p
    have hself := J.joined t os M.thread
    rcases hwhich v p hv with h | h | h <;> grind
  case joining =>
    intro v p b w hv hj
    obtain ⟨hvt, hold⟩ := hwait v p b w hv hj
    obtain ⟨hw, hw0, htarget'⟩ := J.joining v p b w hold hj
    have hne : w ≠ u := by
      intro h
      subst h
      exact hvt (J.joiner v p b w t os other.thread hold hj M.thread hrole.2.2.1)
    have ht := M.thread
    have hthr := M.threads w
    refine ⟨by grind, hw0, fun q hq => ?_⟩
    rcases hwhich w q hq with h | h | h <;> grind
  case joiner =>
    intro v p b w v' p' b' hv hj hv' hj'
    exact J.joiner v p b w v' p' b' (hwait v p b w hv hj).2 hj (hwait v' p' b' w hv' hj').2 hj'
  case deleting =>
    intro v p b hv hd
    rw [M.records]
    have hmaker : ∀ w q, s'.threads w = some q → q.pc.making = some b → _ := fun w q => M.maker
    rcases hstay v p b hv hd with h | h
    · obtain ⟨rfl, rfl⟩ := h
      refine ⟨hrecord, fun w q hw => ⟨fun hb => ?_, fun hb => ?_⟩⟩
      · obtain ⟨q', hq, hqb⟩ := hmaker w q hw hb
        exact P.apart w q' other.thread u other hq hqb M.target rfl
      · have hown := P.own w
        have ht := M.thread
        have hu := M.target
        rcases hwhich w q hw with h | h | h <;> grind
    · obtain ⟨hrec, hothers⟩ := J.deleting v p b h hd
      refine ⟨hrec, fun w q hw => ⟨fun hb => ?_, fun hb => ?_⟩⟩
      · obtain ⟨q', hq, hqb⟩ := hmaker w q hw hb
        exact (hothers w q' hq).1 hqb
      · have ht := M.thread
        rcases hwhich w q hw with h | h | h <;> grind
  case deleter =>
    intro v p b v' p' hv hd hv' hd'
    have hold := J.deleter v p b v' p'
    rcases hstay v p b hv hd with h | h <;> rcases hstay v' p' b hv' hd' with h' | h' <;> grind

theorem kept (M : Joining s s' t os u other) (T : Kept s) : Kept s' := by
  have hrole := M.role
  have hnew := newRole other.thread
  obtain ⟨ht, _, hu, hended, hrec, hthr, _, _, _⟩ := M
  have hidle : Pc.ended.making = none ∧ Pc.ended.deleting = none := ⟨rfl, rfl⟩
  refine ⟨fun b hb => ?_, fun v p hv hj hb => ?_⟩
  · obtain ⟨w, q, hw, hq⟩ := T.held b (by grind)
    by_cases hwt : w = t
    · exact ⟨t, { os with pc := .lock (.delete other.thread false) }, by grind, by grind⟩
    · by_cases hwu : w = u
      · exact ⟨u, { other with joined := true }, by grind, by grind⟩
      · exact ⟨w, q, by grind, hq⟩
  · by_cases hvu : v = u
    · exact ⟨t, { os with pc := .lock (.delete other.thread false) }, by grind, by grind⟩
    · obtain ⟨q, hq, hqj, hthread⟩ : ∃ q, s.threads v = some q ∧ q.joined = true ∧ q.thread = p.thread := by
        grind
      obtain ⟨w, p', hw, hp'⟩ := T.pending v q hq hqj (by grind)
      exact ⟨w, p', by grind, by rw [← hthread]; exact hp'⟩

theorem ids (M : Joining s s' t os u other) (I : Ids s) : Ids s' := by
  have hrole := M.role
  have hnew := newRole other.thread
  obtain ⟨ht, _, hu, hended, hrec, hthr, _, _, hid⟩ := M
  have hnumbered : ∀ b, Numbered s' b → Numbered s b := by
    intro b hb
    obtain ⟨v, p, hv, hp⟩ := hb
    obtain ⟨q, hq, hqb⟩ : ∃ q, s.threads v = some q ∧ (q.thread = b ∨ q.pc.numbering = some b) := by
      by_cases hvt : v = t
      · exact ⟨os, by grind, by grind⟩
      · by_cases hvu : v = u
        · exact ⟨other, by grind, by grind⟩
        · exact ⟨p, by grind, hp⟩
    exact ⟨v, q, hq, hqb⟩
  refine ⟨fun b r hb hr => ?_, fun b r c r' hb hc hr hr' hsame => ?_⟩
  · rw [hid]
    exact I.bound b r (hnumbered b hb) (by rw [← hrec, hr])
  · exact I.distinct b r c r' (hnumbered b hb) (hnumbered c hc) (by rw [← hrec, hr]) (by rw [← hrec, hr']) hsame

theorem identifiers (M : Joining s s' t os u other) (I : Identifiers s) : Identifiers s' := by
  have hrole := M.role
  obtain ⟨ht, _, hu, hended, hrec, hthr, _, _, _⟩ := M
  unfold Identifiers at *
  grind [Known, Os.InUse]

theorem named (M : Joining s s' t os u other) (N : Named s) : Named s' := by
  have hrole := M.role
  have hunnamed : Unnamed s other.thread := fun v p hv =>
    N.waits t os other.thread u v p M.thread hrole.2.2.1 hv
  refine N.stays (fun v p a hv ha => ?_) (fun v p hv hnamed => ?_) fun v p a w hv hj => Or.inl ?_
  · rcases M.which hv with h | h | h
    · rw [h.2] at ha
      exact absurd ha (by simp [Pc.naming])
    · rw [h.2.2] at ha
      exact ⟨other, h.1 ▸ M.target, ha⟩
    · exact ⟨p, h.2.2, ha⟩
  · have hthreads := M.threads v
    by_cases hvt : v = t
    · subst hvt
      cases M.thread.symm.trans hv
      exact ⟨_, hthreads.trans (if_pos rfl), rfl, rfl, fun _ hout => absurd hout id⟩
    · rw [if_neg hvt] at hthreads
      by_cases hvu : v = u
      · subst hvu
        cases M.target.symm.trans hv
        exact absurd hunnamed hnamed
      · exact ⟨p, hthreads.trans (by rw [if_neg hvu, hv]), rfl, rfl, fun hdet hout => ⟨hdet, hout⟩⟩
  · rcases M.which hv with h | h | h
    · rw [h.2] at hj
      exact absurd hj (by simp [Pc.joining])
    · rw [h.2.2] at hj
      exact ⟨other, h.1 ▸ M.target, hj⟩
    · exact ⟨p, h.2.2, hj⟩

theorem roles (M : Joining s s' t os u other) (R : Roles s) : Roles s' :=
  ⟨M.places R.places, M.owned R.owned, M.joins R.places R.owned R.joins, M.kept R.kept, M.ids R.ids,
    M.identifiers R.identifiers, M.named R.named⟩

end Joining

end IcecastCommon.Thread
