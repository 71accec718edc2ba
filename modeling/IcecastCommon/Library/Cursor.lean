import Mathlib.Data.List.Basic
import Mathlib.Data.List.TakeWhile

/- Memory that is filled through a pointer, as code does that has counted before how much it
   needs. A cell may hold nothing yet. `behind done rest` is the memory with `done` in front
   of the pointer and the cells `rest` from the pointer on: the rules say what a write makes
   of it. A write outside of the memory is a fault. -/
namespace IcecastCommon.Library

variable {α : Type}

/-- A memory and the position of the next write. -/
structure Cursor (α : Type) where
  mem : List (Option α)
  pos : Nat
deriving DecidableEq, Repr

namespace Cursor

/-- New memory of `n` cells, with `z` in each of them. -/
def fresh (z : Option α) (n : Nat) : Cursor α := ⟨List.replicate n z, 0⟩

/-- A write that moves the pointer on. -/
def put (out : Cursor α) (c : α) : Option (Cursor α) :=
  if out.pos < out.mem.length then some ⟨out.mem.set out.pos (some c), out.pos + 1⟩ else none

/-- The writes of a whole sequence. -/
def putAll (out : Cursor α) (s : List α) : Option (Cursor α) := s.foldlM put out

/-- What stands in a memory up to the first `z`; reading a cell that holds nothing is a fault. -/
def readTo [DecidableEq α] (z : α) : List (Option α) → Option (List α)
  | [] => none
  | none :: _ => none
  | some c :: rest => if c = z then some [] else (readTo z rest).map (c :: ·)

/-- The pointer behind `done`, in front of the cells `rest`. -/
def behind (done : List α) (rest : List (Option α)) : Cursor α := ⟨done.map some ++ rest, done.length⟩

theorem putAll_cons (out : Cursor α) (c : α) (s : List α) :
    out.putAll (c :: s) = (out.put c).bind fun out => out.putAll s := rfl

theorem putAll_append (out : Cursor α) (s t : List α) :
    out.putAll (s ++ t) = (out.putAll s).bind fun out => out.putAll t := List.foldlM_append

theorem putAll_nil (out : Cursor α) : out.putAll [] = some out := rfl

theorem fresh_eq (z : Option α) (n : Nat) : fresh z n = behind [] (List.replicate n z) := rfl

theorem put_behind {rest : List (Option α)} (h : 0 < rest.length) (done : List α) (c : α) :
    (behind done rest).put c = some (behind (done ++ [c]) rest.tail) := by
  obtain ⟨z, rest, rfl⟩ := List.exists_cons_of_length_pos h
  have hlen : (done.map some).length = done.length := List.length_map ..
  have hlt : done.length < (done.map some ++ z :: rest).length := by
    rw [List.length_append, hlen, List.length_cons]
    omega
  rw [put, behind, if_pos hlt, behind, List.map_append, List.append_assoc, List.length_append,
    List.set_append_right _ _ (Nat.le_of_eq hlen), hlen, Nat.sub_self, List.set_cons_zero]
  rfl

theorem putAll_behind {rest : List (Option α)} {s : List α} (h : s.length ≤ rest.length) (done : List α) :
    (behind done rest).putAll s = some (behind (done ++ s) (rest.drop s.length)) := by
  induction s generalizing done rest with
  | nil => rw [putAll_nil, List.append_nil, List.length_nil, List.drop_zero]
  | cons c s ih =>
    rw [List.length_cons] at h
    have hrest : s.length ≤ rest.tail.length := by
      rw [List.length_tail]
      omega
    rw [putAll_cons, put_behind (Nat.lt_of_lt_of_le (Nat.succ_pos _) h), Option.bind_some, ih hrest,
      List.append_assoc, List.length_cons, List.drop_tail]
    rfl

/-- New memory that is written to. -/
theorem putAll_fresh (z : Option α) {n : Nat} {s : List α} (h : s.length ≤ n) :
    (fresh z n).putAll s = some (behind s (List.replicate (n - s.length) z)) := by
  have hfits : s.length ≤ (List.replicate n z).length := by rwa [List.length_replicate]
  rw [fresh_eq, putAll_behind hfits, List.nil_append, List.drop_replicate]

/-- The same with a last write of its own. -/
theorem putAll_put_fresh (z : Option α) {n : Nat} {s : List α} (h : s.length < n) (c : α) :
    ∃ out, (fresh z n).putAll s = some out ∧
      out.put c = some (behind (s ++ [c]) (List.replicate (n - (s.length + 1)) z)) := by
  refine ⟨_, putAll_fresh z (Nat.le_of_lt h), ?_⟩
  have hleft : 0 < (List.replicate (n - s.length) z).length := by
    rw [List.length_replicate]
    omega
  rw [put_behind hleft, List.tail_replicate, Nat.sub_sub]

theorem behind_take (done : List α) (rest : List (Option α)) :
    (behind done rest).mem.take (behind done rest).pos = done.map some := by
  have hlen : (done.map some).length = done.length := List.length_map ..
  exact List.take_left' hlen

theorem behind_length (done : List α) (rest : List (Option α)) :
    (behind done rest).mem.length = done.length + rest.length := by
  rw [behind, List.length_append, List.length_map]

theorem readTo_map [DecidableEq α] (z : α) (s : List α) (rest : List (Option α)) :
    readTo z (s.map some ++ some z :: rest) = some (s.takeWhile (· ≠ z)) := by
  induction s with
  | nil => exact if_pos rfl
  | cons c s ih =>
    rw [List.map_cons, List.cons_append, readTo, ih]
    by_cases hc : c = z
    · rw [if_pos hc, List.takeWhile_cons_of_neg (by simpa using hc)]
    · rw [if_neg hc, List.takeWhile_cons_of_pos (by simpa using hc)]
      rfl

end Cursor

end IcecastCommon.Library
