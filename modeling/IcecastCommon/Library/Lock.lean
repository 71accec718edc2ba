import Mathlib.Logic.Function.Basic

/- Parties that share a lock. Each has a state of its own, and some of these states are inside
   the lock. `Excl` says that the owner of the lock is the party inside it; the rules keep it
   when a party takes the lock, drops it, moves without touching it or joins. -/
namespace IcecastCommon.Library

variable {L : Type}

/-- The lock belongs to the party inside it, and is free when there is none. -/
def Excl (inside : L → Prop) (owner : Option Nat) (parties : Nat → Option L) : Prop :=
  ∀ t, owner = some t ↔ ∃ l, parties t = some l ∧ inside l

namespace Excl
variable {inside : L → Prop} {owner : Option Nat} {parties : Nat → Option L}

/-- Two parties are never inside at once. -/
theorem unique (E : Excl inside owner parties) {t u : Nat} {l m : L} (ht : parties t = some l)
    (hl : inside l) (hu : parties u = some m) (hm : inside m) : t = u := by
  have howner := (E t).mpr ⟨l, ht, hl⟩
  rw [(E u).mpr ⟨m, hu, hm⟩] at howner
  exact (Option.some.inj howner).symm

/-- A party moves and stays on its side of the lock. -/
theorem move (E : Excl inside owner parties) {t : Nat} {l k : L} (ht : parties t = some l)
    (h : inside k ↔ inside l) : Excl inside owner (Function.update parties t (some k)) := by
  intro u
  by_cases hu : u = t
  · subst hu
    rw [Function.update_self, E u, ht]
    simp only [Option.some.injEq, exists_eq_left', h]
  · rw [Function.update_of_ne hu, E u]

/-- A party takes the free lock. -/
theorem take (E : Excl inside none parties) (t : Nat) {k : L} (h : inside k) :
    Excl inside (some t) (Function.update parties t (some k)) := by
  intro u
  by_cases hu : u = t
  · subst hu
    rw [Function.update_self]
    exact ⟨fun _ => ⟨k, rfl, h⟩, fun _ => rfl⟩
  · have hnone : ¬ ∃ l, parties u = some l ∧ inside l := fun hin =>
      Option.some_ne_none u ((E u).mpr hin).symm
    rw [Function.update_of_ne hu]
    exact ⟨fun ho => absurd (Option.some.inj ho).symm hu, fun hin => absurd hin hnone⟩

/-- The owner drops the lock. -/
theorem drop (E : Excl inside owner parties) {t : Nat} {l k : L} (ht : parties t = some l)
    (hl : inside l) (h : ¬ inside k) : Excl inside none (Function.update parties t (some k)) := by
  intro u
  refine ⟨fun ho => absurd ho.symm (Option.some_ne_none u), fun hin => ?_⟩
  obtain ⟨m, hm, hin⟩ := hin
  by_cases hu : u = t
  · subst hu
    rw [Function.update_self] at hm
    cases hm
    exact absurd hin h
  · rw [Function.update_of_ne hu] at hm
    exact absurd (E.unique hm hin ht hl) hu

/-- A party joins outside the lock. -/
theorem enter (E : Excl inside owner parties) {t : Nat} {k : L} (ht : parties t = none)
    (h : ¬ inside k) : Excl inside owner (Function.update parties t (some k)) := by
  intro u
  by_cases hu : u = t
  · subst hu
    rw [Function.update_self, E u, ht]
    refine ⟨fun hin => ?_, fun hin => ?_⟩
    · obtain ⟨l, hl, _⟩ := hin
      exact absurd hl.symm (Option.some_ne_none l)
    · obtain ⟨l, hl, hin⟩ := hin
      cases hl
      exact absurd hin h
  · rw [Function.update_of_ne hu, E u]

end Excl

end IcecastCommon.Library
