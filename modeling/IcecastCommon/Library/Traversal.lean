import IcecastCommon.Library.Context

/- The values of a tree met in one direction, and what of them lies ahead of a hole. A
   tree has a hole for every way to split that sequence at a value. -/
namespace IcecastCommon.Library
open BinaryTree

variable {α : Type}

/-- The values of a tree in the order they are met going to side `d`. -/
def inorderFrom (d : Side) (t : BinaryTree α) : List α :=
  match d with
  | .left => (inorder t).reverse
  | .right => inorder t

@[simp] theorem inorderFrom_nil (d : Side) : inorderFrom d (nil : BinaryTree α) = [] := by
  cases d <;> rfl

theorem inorderFrom_join (d : Side) (a : α) (x y : BinaryTree α) :
    inorderFrom d (join d a x y) = inorderFrom d y ++ a :: inorderFrom d x := by
  cases d <;> simp [inorderFrom]

theorem inorderFrom_flip (d : Side) (t : BinaryTree α) :
    inorderFrom d.flip t = (inorderFrom d t).reverse := by
  cases d <;> simp [inorderFrom]

theorem inorderFrom_length (d : Side) (t : BinaryTree α) : (inorderFrom d t).length = t.numNodes := by
  cases d <;> simp [inorderFrom, inorder_length]

theorem mem_inorderFrom {d : Side} {t : BinaryTree α} {a : α} : a ∈ inorderFrom d t ↔ a ∈ inorder t := by
  cases d <;> simp [inorderFrom]

/-- The values outside a hole that lie to side `d` of it, nearest first. -/
def ahead (d : Side) : List (Frame α) → List α
  | [] => []
  | f :: fs => if f.side = d then ahead d fs else f.value :: inorderFrom d f.sibling ++ ahead d fs

theorem ahead_same (d : Side) (a : α) (s : BinaryTree α) (fs : List (Frame α)) :
    ahead d (⟨d, a, s⟩ :: fs) = ahead d fs := by
  rw [ahead, if_pos rfl]

theorem ahead_flip (d : Side) (a : α) (s : BinaryTree α) (fs : List (Frame α)) :
    ahead d (⟨d.flip, a, s⟩ :: fs) = a :: inorderFrom d s ++ ahead d fs := by
  rw [ahead, if_neg]
  cases d <;> simp

theorem Side.eq_or_flip (d e : Side) : d = e ∨ d = e.flip := by
  cases d <;> cases e <;> decide

/-- A hole for a split of the sequence. -/
theorem exists_hole (d : Side) {t : BinaryTree α} {as bs : List α} {a : α}
    (h : inorderFrom d t = as ++ a :: bs) :
    ∃ fs x y, t = plug fs (join d a x y) ∧ inorderFrom d x ++ ahead d fs = bs := by
  have key : ∀ (t : BinaryTree α) (as bs : List α) (gs : List (Frame α)), inorderFrom d t = as ++ a :: bs →
      ∃ fs x y, plug gs t = plug fs (join d a x y) ∧
        inorderFrom d x ++ ahead d fs = bs ++ ahead d gs := by
    intro t
    generalize hn : t.numNodes = n
    -- on the number of nodes: the split falls into the one subtree, at the root, or into the other
    induction n using Nat.strong_induction_on generalizing t with
    | _ n ih =>
      intro as bs gs h
      by_cases ht : t = nil
      · rw [ht, inorderFrom_nil] at h
        exact absurd h (by simp)
      · obtain ⟨c, x, y, rfl⟩ := exists_join d ht
        rw [inorderFrom_join] at h
        rw [numNodes_join] at hn
        rcases List.append_eq_append_iff.mp h with ⟨u, hu, hv⟩ | ⟨u, hu, hv⟩
        · cases u with
          | nil =>
            obtain ⟨rfl, rfl⟩ : c = a ∧ inorderFrom d x = bs := by simpa using hv
            exact ⟨gs, x, y, rfl, rfl⟩
          | cons u₀ u =>
            obtain ⟨rfl, hx⟩ : c = u₀ ∧ inorderFrom d x = u ++ a :: bs := by simpa using hv
            obtain ⟨fs, x', y', e, hrest⟩ := ih x.numNodes (by omega) x rfl u bs (⟨d, c, y⟩ :: gs) hx
            refine ⟨fs, x', y', e, ?_⟩
            rw [hrest, ahead_same]
        · cases u with
          | nil =>
            obtain ⟨rfl, rfl⟩ : a = c ∧ bs = inorderFrom d x := by simpa using hv
            exact ⟨gs, x, y, rfl, rfl⟩
          | cons u₀ u =>
            obtain ⟨rfl, hbs⟩ : a = u₀ ∧ bs = u ++ c :: inorderFrom d x := by simpa using hv
            obtain ⟨fs, x', y', e, hrest⟩ :=
              ih y.numNodes (by omega) y rfl as u (⟨d.flip, c, x⟩ :: gs) hu
            refine ⟨fs, x', y', ?_, ?_⟩
            · rw [← e, plug_cons, Frame.plug, join_flip]
            · rw [hrest, ahead_flip, hbs]
              simp
  obtain ⟨fs, x, y, e, hrest⟩ := key t as bs [] h
  exact ⟨fs, x, y, e, by simpa [ahead] using hrest⟩

end IcecastCommon.Library
