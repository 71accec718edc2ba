import Mathlib.Logic.Function.Basic
import Mathlib.Data.List.Nodup
import Mathlib.Data.List.Perm.Subperm

/- A singly linked queue whose tail is a place: the head link, or the link of a cell. A
   push stores the new cell's address at that place and moves the place to the new link, a
   pop frees the first cell and leaves the place alone. So a pop of the only cell leaves
   the place in a freed cell (`Broken`), and no later push goes through. -/
namespace IcecastCommon.Library

variable {V : Type}

structure QueueCell (V : Type) where
  value : V
  next : Option Nat

/-- Where the address of the next cell is to be stored. -/
inductive Place where
  | head
  | next (a : Nat)
  deriving DecidableEq, Repr

/-- The cells allocated, the next address, and the two ends. -/
structure Queue (V : Type) where
  cell : Nat → Option (QueueCell V)
  fresh : Nat
  head : Option Nat
  tail : Place

namespace Queue

def empty : Queue V := { cell := fun _ => none, fresh := 0, head := none, tail := .head }

/-- A new cell without successor. -/
def alloc (q : Queue V) (v : V) : Nat × Queue V :=
  (q.fresh, { q with cell := Function.update q.cell q.fresh (some ⟨v, none⟩), fresh := q.fresh + 1 })

/-- `*tail = p`. -/
def store (q : Queue V) (p : Option Nat) : Option (Queue V) :=
  match q.tail with
  | .head => some { q with head := p }
  | .next a => (q.cell a).map fun c =>
      { q with cell := Function.update q.cell a (some { c with next := p }) }

/-- A new cell behind the last one. -/
def push (q : Queue V) (v : V) : Option (Queue V) :=
  let (a, q) := q.alloc v
  (q.store (some a)).map fun q => { q with tail := .next a }

/-- The first cell is unlinked and freed. -/
def pop (q : Queue V) : Option (V × Queue V) := do
  let a ← q.head
  let c ← q.cell a
  some (c.value, { q with head := c.next, cell := Function.update q.cell a none })

/-- The values from a link on. -/
def readFrom (cell : Nat → Option (QueueCell V)) : Nat → Option Nat → Option (List V)
  | 0, _ => none
  | _ + 1, none => some []
  | fuel + 1, some a => do
    let c ← cell a
    let rest ← readFrom cell fuel c.next
    some (c.value :: rest)

/-- All values, first to last. -/
def read (q : Queue V) : Option (List V) := readFrom q.cell (q.fresh + 1) q.head

/-! Segments. -/

/-- From the link `p` through the cells `cs` to the link `e`. -/
def Seg (cell : Nat → Option (QueueCell V)) : Option Nat → List (Nat × V) → Option Nat → Prop
  | p, [], e => p = e
  | p, (a, v) :: cs, e => p = some a ∧ ∃ n, cell a = some ⟨v, n⟩ ∧ Seg cell n cs e

theorem seg_append {cell : Nat → Option (QueueCell V)} {p e : Option Nat} {cs ds : List (Nat × V)} :
    Seg cell p (cs ++ ds) e ↔ ∃ m, Seg cell p cs m ∧ Seg cell m ds e := by
  induction cs generalizing p with
  | nil => simp [Seg]
  | cons c cs ih =>
    obtain ⟨a, v⟩ := c
    simp only [List.cons_append, Seg, ih]
    constructor
    · intro h
      obtain ⟨hp, n, hc, m, h₁, h₂⟩ := h
      exact ⟨m, ⟨hp, n, hc, h₁⟩, h₂⟩
    · intro h
      obtain ⟨m, ⟨hp, n, hc, h₁⟩, h₂⟩ := h
      exact ⟨hp, n, hc, m, h₁, h₂⟩

/-- A segment depends on its own cells only. -/
theorem Seg.congr {cell cell' : Nat → Option (QueueCell V)} {p e : Option Nat} {cs : List (Nat × V)}
    (h : Seg cell p cs e) (heq : ∀ a ∈ cs.map Prod.fst, cell' a = cell a) : Seg cell' p cs e := by
  induction cs generalizing p with
  | nil => exact h
  | cons c cs ih =>
    obtain ⟨a, v⟩ := c
    obtain ⟨hp, n, hc, hrest⟩ := h
    refine ⟨hp, n, ?_, ih hrest ?_⟩
    · rw [heq a (by simp), hc]
    · intro b hb
      exact heq b (by simp only [List.map_cons, List.mem_cons]; exact Or.inr hb)

theorem readFrom_seg {cell : Nat → Option (QueueCell V)} {p : Option Nat} {cs : List (Nat × V)}
    {fuel : Nat} (h : Seg cell p cs none) (hfuel : cs.length < fuel) :
    readFrom cell fuel p = some (cs.map Prod.snd) := by
  induction cs generalizing p fuel with
  | nil =>
    obtain ⟨fuel, rfl⟩ : ∃ n, fuel = n + 1 := ⟨fuel - 1, by omega⟩
    obtain rfl : p = none := h
    rfl
  | cons c cs ih =>
    obtain ⟨a, v⟩ := c
    rw [List.length_cons] at hfuel
    obtain ⟨fuel, rfl⟩ : ∃ n, fuel = n + 1 := ⟨fuel - 1, by omega⟩
    obtain ⟨rfl, n, hc, hrest⟩ := h
    rw [readFrom, hc]
    simp only [Option.bind_eq_bind, Option.bind_some, ih hrest (by omega : cs.length < fuel),
      List.map_cons]

/-! The queue. -/

/-- The place behind the last cell. -/
def endPlace (cs : List (Nat × V)) : Place :=
  match cs.getLast? with
  | none => .head
  | some c => .next c.1

/-- The queue holds the cells `cs` and its tail is behind the last one. -/
structure Holds (q : Queue V) (cs : List (Nat × V)) : Prop where
  seg : Seg q.cell q.head cs none
  nodup : (cs.map Prod.fst).Nodup
  bound : ∀ a ∈ cs.map Prod.fst, a < q.fresh
  tail : q.tail = endPlace cs

/-- No cell, and the tail in one that has been freed. -/
def Broken (q : Queue V) : Prop :=
  q.head = none ∧ ∃ a, q.tail = .next a ∧ a < q.fresh ∧ q.cell a = none

theorem holds_empty : (empty : Queue V).Holds [] := by
  refine ⟨rfl, List.nodup_nil, ?_, rfl⟩
  intro a ha
  exact absurd ha (by simp)

/-- Both ends set back, whatever there was. -/
theorem holds_reset (q : Queue V) : ({ q with head := none, tail := .head } : Queue V).Holds [] := by
  refine ⟨rfl, List.nodup_nil, ?_, rfl⟩
  intro a ha
  exact absurd ha (by simp)

theorem Holds.length_le {q : Queue V} {cs : List (Nat × V)} (H : q.Holds cs) : cs.length ≤ q.fresh := by
  have hsub : cs.map Prod.fst ⊆ List.range q.fresh := fun a ha => List.mem_range.mpr (H.bound a ha)
  have hle := (List.Nodup.subperm H.nodup hsub).length_le
  rwa [List.length_map, List.length_range] at hle

/-- The values are read off in order. -/
theorem Holds.read {q : Queue V} {cs : List (Nat × V)} (H : q.Holds cs) :
    q.read = some (cs.map Prod.snd) :=
  readFrom_seg H.seg (Nat.lt_succ_of_le H.length_le)

/-- The tail is the head link exactly when there is no cell. -/
theorem Holds.tail_eq_head {q : Queue V} {cs : List (Nat × V)} (H : q.Holds cs) :
    q.tail = .head ↔ cs = [] := by
  rw [H.tail, endPlace]
  cases h : cs.getLast? with
  | none => simpa using h
  | some c =>
    have hne : cs ≠ [] := by
      rintro rfl
      exact absurd h (by simp)
    simp [hne]

/-- A push puts a new cell behind the last one. -/
theorem Holds.push {q : Queue V} {cs : List (Nat × V)} (H : q.Holds cs) (v : V) :
    ∃ q', q.push v = some q' ∧ q'.Holds (cs ++ [(q.fresh, v)]) ∧ q'.fresh = q.fresh + 1 := by
  have hfresh : q.fresh ∉ cs.map Prod.fst := fun hm => Nat.lt_irrefl _ (H.bound _ hm)
  have hnodup : ((cs ++ [(q.fresh, v)]).map Prod.fst).Nodup := by
    rw [List.map_append, List.nodup_append]
    refine ⟨H.nodup, by simp, ?_⟩
    intro a ha b hb
    obtain rfl : b = q.fresh := by simpa using hb
    rintro rfl
    exact hfresh ha
  have hbound : ∀ a ∈ (cs ++ [(q.fresh, v)]).map Prod.fst, a < q.fresh + 1 := by
    intro a ha
    rw [List.map_append, List.mem_append] at ha
    rcases ha with ha | ha
    · exact Nat.lt_succ_of_lt (H.bound a ha)
    · obtain rfl : a = q.fresh := by simpa using ha
      exact Nat.lt_succ_self _
  have hend : endPlace (cs ++ [(q.fresh, v)]) = .next q.fresh := by simp [endPlace]
  rcases List.eq_nil_or_concat cs with rfl | ⟨init, ⟨l, u⟩, rfl⟩
  · -- the first cell
    have htail : q.tail = .head := H.tail
    refine ⟨⟨Function.update q.cell q.fresh (some ⟨v, none⟩), q.fresh + 1, some q.fresh,
      .next q.fresh⟩, ?_, ⟨⟨rfl, none, Function.update_self .., rfl⟩, hnodup, hbound, hend.symm⟩, rfl⟩
    simp only [Queue.push, alloc, store, htail]
    rfl
  · -- behind the cell `l`
    rw [List.concat_eq_append] at H hfresh hnodup hbound hend ⊢
    obtain ⟨m, hinit, rfl, n, hl, rfl⟩ := seg_append.mp H.seg
    have htail : q.tail = .next l := by rw [H.tail]; simp [endPlace]
    have hne : l ≠ q.fresh := by
      rintro rfl
      exact hfresh (by simp)
    have hninit : l ∉ init.map Prod.fst := by
      have hnd := H.nodup
      rw [List.map_append, List.nodup_append] at hnd
      exact fun hm => hnd.2.2 l hm l (by simp) rfl
    refine ⟨⟨Function.update (Function.update q.cell q.fresh (some ⟨v, none⟩)) l
      (some ⟨u, some q.fresh⟩), q.fresh + 1, q.head, .next q.fresh⟩, ?_,
      ⟨?_, hnodup, hbound, hend.symm⟩, rfl⟩
    · simp only [Queue.push, alloc, store, htail, Function.update_of_ne hne, hl]
      rfl
    · refine seg_append.mpr ⟨some q.fresh, seg_append.mpr ⟨some l, hinit.congr ?_, rfl,
        some q.fresh, Function.update_self .., rfl⟩, rfl, none, ?_, rfl⟩
      · intro a ha
        have h₁ : a ≠ l := fun e => hninit (e ▸ ha)
        have h₂ : a ≠ q.fresh := fun e => hfresh (by
          rw [List.map_append, List.mem_append]
          exact Or.inl (e ▸ ha))
        exact (Function.update_of_ne h₁ _ _).trans (Function.update_of_ne h₂ _ _)
      · exact (Function.update_of_ne hne.symm _ _).trans (Function.update_self ..)

/-- A pop takes the first cell; the tail stays right when another is left. -/
theorem Holds.pop {q : Queue V} {a : Nat} {v : V} {cs : List (Nat × V)} (H : q.Holds ((a, v) :: cs)) :
    ∃ q', q.pop = some (v, q') ∧ q'.fresh = q.fresh ∧ (cs ≠ [] → q'.Holds cs) ∧
      (cs = [] → q'.Broken) := by
  obtain ⟨hhead, n, hc, hrest⟩ := H.seg
  have hnd := H.nodup
  rw [List.map_cons, List.nodup_cons] at hnd
  refine ⟨{ q with head := n, cell := Function.update q.cell a none }, ?_, rfl, ?_, ?_⟩
  · simp only [Queue.pop, hhead, Option.bind_eq_bind, Option.bind_some, hc]
  · intro hne
    refine ⟨hrest.congr ?_, hnd.2, fun b hb => H.bound b (List.mem_cons_of_mem _ hb), ?_⟩
    · intro b hb
      refine Function.update_of_ne ?_ _ _
      rintro rfl
      exact hnd.1 hb
    · show q.tail = _
      rw [H.tail, endPlace, endPlace, List.getLast?_cons_of_ne_nil hne]
  · rintro rfl
    refine ⟨hrest, a, ?_, H.bound a (by simp), Function.update_self ..⟩
    show q.tail = _
    rw [H.tail]
    rfl

/-- Nothing can be pushed onto a broken queue. -/
theorem Broken.push {q : Queue V} (B : q.Broken) (v : V) : q.push v = none := by
  obtain ⟨_, a, htail, hlt, hcell⟩ := B
  simp only [Queue.push, alloc, store, htail, Function.update_of_ne (Nat.ne_of_lt hlt), hcell]
  rfl

/-- A broken queue holds nothing, not even no cells. -/
theorem Broken.not_holds {q : Queue V} (B : q.Broken) (cs : List (Nat × V)) : ¬ q.Holds cs := by
  intro H
  obtain ⟨hhead, a, htail, _⟩ := B
  have hnil : cs = [] := by
    cases cs with
    | nil => rfl
    | cons c cs =>
      obtain ⟨hsome, _⟩ := H.seg
      rw [hhead] at hsome
      cases hsome
  have htail' := H.tail_eq_head.mpr hnil
  rw [htail] at htail'
  cases htail'

theorem Broken.read {q : Queue V} (B : q.Broken) : q.read = some [] := by
  rw [Queue.read, B.1]
  rfl

/-! Queues that differ in their addresses only. -/

/-- The same values, or both broken. -/
def Alike (q q' : Queue V) : Prop :=
  (∃ cs cs', q.Holds cs ∧ q'.Holds cs' ∧ cs.map Prod.snd = cs'.map Prod.snd) ∨ q.Broken ∧ q'.Broken

theorem Alike.read {q q' : Queue V} (h : q.Alike q') : q.read = q'.read := by
  rcases h with h | h
  · obtain ⟨cs, cs', H, H', heq⟩ := h
    rw [H.read, H'.read, heq]
  · rw [h.1.read, h.2.read]

theorem Alike.push {q q' : Queue V} (h : q.Alike q') (v : V) : Option.Rel Alike (q.push v) (q'.push v) := by
  rcases h with h | h
  · obtain ⟨cs, cs', H, H', heq⟩ := h
    obtain ⟨p, hp, P, _⟩ := H.push v
    obtain ⟨p', hp', P', _⟩ := H'.push v
    rw [hp, hp']
    refine .some (Or.inl ⟨_, _, P, P', ?_⟩)
    rw [List.map_append, List.map_append, heq]
    rfl
  · rw [h.1.push, h.2.push]
    exact .none

theorem pop_none {q : Queue V} (h : q.head = none) : q.pop = none := by
  rw [Queue.pop, h]
  rfl

theorem Alike.pop {q q' : Queue V} (h : q.Alike q') :
    Option.Rel (fun r r' => r.1 = r'.1 ∧ r.2.Alike r'.2) q.pop q'.pop := by
  rcases h with h | h
  · obtain ⟨cs, cs', H, H', heq⟩ := h
    match cs, cs', heq with
    | [], [], _ =>
      have hnone : q.head = none := H.seg
      have hnone' : q'.head = none := H'.seg
      rw [pop_none hnone, pop_none hnone']
      exact .none
    | (a, v) :: cs, (a', v') :: cs', heq =>
      simp only [List.map_cons, List.cons.injEq] at heq
      obtain ⟨p, hp, _, hmore, hlast⟩ := H.pop
      obtain ⟨p', hp', _, hmore', hlast'⟩ := H'.pop
      rw [hp, hp']
      refine .some ⟨heq.1, ?_⟩
      have hnil : cs = [] ↔ cs' = [] := by
        rw [← List.map_eq_nil_iff, heq.2, List.map_eq_nil_iff]
      by_cases hcs : cs = []
      · exact Or.inr ⟨hlast hcs, hlast' (hnil.mp hcs)⟩
      · exact Or.inl ⟨cs, cs', hmore hcs, hmore' fun h => hcs (hnil.mpr h), heq.2⟩
  · rw [pop_none h.1.1, pop_none h.2.1]
    exact .none

end Queue

end IcecastCommon.Library
