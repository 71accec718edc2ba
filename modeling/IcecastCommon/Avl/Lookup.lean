import IcecastCommon.Avl.Insert
import IcecastCommon.Avl.TreeOrder

/- The lookups of `avl.c` on a heap that holds a tree: `avl_get_by_key` is the search
   `findKey` and `avl_get_by_index` the walk `atRank` on that tree. `sequence` reads
   the in-order key sequence off the links. The links determine the tree, so there
   is only one tree a state holds. -/
namespace IcecastCommon.Avl
open Library BinaryTree Heap

variable {K : Type}

theorem getByKeyLoop_spec {cmp : Option K → Option K → Int} {h : Heap K} (key : Option K) {fuel : Nat}
    {par : Ptr} {c : Cell K} {l r : BinaryTree (Cell K)} (ht : Rep h par (node c l r))
    (hfuel : (node c l r).height ≤ fuel) :
    getByKeyLoop cmp h key fuel (some c.addr) = some (findKey cmp key (node c l r)) := by
  induction fuel generalizing par c l r with
  | zero => simp at hfuel
  | succ fuel ih =>
    obtain ⟨hc, hl, hr⟩ := ht
    simp only [height] at hfuel
    rw [getByKeyLoop, findKey]
    simp only [load_some, hc, Cell.record, Option.bind_eq_bind, Option.bind_some]
    split
    · cases l with
      | nil => rfl
      | node cl ll lr => exact ih hl (by omega)
    split
    · cases r with
      | nil => rfl
      | node cr rl rr => exact ih hr (by omega)
    · rfl

/-- `avl_get_by_key` is the search. -/
theorem avlGetByKey_spec {ob : AvlState K} {hdr : Addr} {t : BinaryTree (Cell K)} (H : Holds ob hdr t)
    (key : Option K) : avlGetByKey ob key = some (findKey ob.tree.compareFun key t) := by
  obtain ⟨w, hw⟩ := H.load_root
  simp only [avlGetByKey, hw, Option.bind_eq_bind, Option.bind_some]
  cases t with
  | nil => rfl
  | node c l r => exact getByKeyLoop_spec key H.focus.tree H.height_lt.le

theorem getByIndexLoop_spec {h : Heap K} {fuel : Nat} {par : Ptr} {t : BinaryTree (Cell K)}
    (ht : Rep h par t) (hfuel : t.height < fuel) (m : BitVec 64) :
    getByIndexLoop h fuel (ptr t) m = some (atRank t m) := by
  induction fuel generalizing par t m with
  | zero => simp at hfuel
  | succ fuel ih =>
    cases t with
    | nil => rfl
    | node c l r =>
      obtain ⟨hc, hl, hr⟩ := ht
      simp only [height] at hfuel
      rw [ptr_node, getByIndexLoop, atRank]
      simp only [load_some, hc, Cell.record, Option.bind_eq_bind, Option.bind_some]
      split
      · exact ih hl (by omega) m
      split
      · exact ih hr (by omega) _
      · rfl

/-- `avl_get_by_index` is the walk from the position plus one, which may wrap. -/
theorem avlGetByIndex_spec {ob : AvlState K} {hdr : Addr} {t : BinaryTree (Cell K)} (H : Holds ob hdr t)
    (index : BitVec 64) : avlGetByIndex ob index = some (atRank t (index + 1)) := by
  obtain ⟨w, hw⟩ := H.load_root
  simp only [avlGetByIndex, hw, Option.bind_eq_bind, Option.bind_some]
  exact getByIndexLoop_spec H.focus.tree (Nat.lt_succ_of_lt H.height_lt) _

/-! The tree a state holds. -/

/-- The in-order keys below a pointer. -/
def readKeys (h : Heap K) : Nat → Ptr → Option (List (Option K))
  | 0, _ => none
  | _ + 1, none => some []
  | fuel + 1, some a => do
    let n ← h.cell a
    let l ← readKeys h fuel n.left
    let r ← readKeys h fuel n.right
    some (l ++ n.key :: r)

/-- The in-order key sequence of a tree, read off its links. -/
def AvlState.sequence (ob : AvlState K) : Option (List (Option K)) := do
  let root ← ob.heap.load ob.tree.root
  readKeys ob.heap (ob.heap.next + 1) root.right

theorem readKeys_spec {h : Heap K} {fuel : Nat} {par : Ptr} {t : BinaryTree (Cell K)} (ht : Rep h par t)
    (hfuel : t.height < fuel) : readKeys h fuel (ptr t) = some (keys t) := by
  induction fuel generalizing par t with
  | zero => simp at hfuel
  | succ fuel ih =>
    cases t with
    | nil => rfl
    | node c l r =>
      obtain ⟨hc, hl, hr⟩ := ht
      simp only [height] at hfuel
      rw [ptr_node, readKeys, keys_node]
      simp only [hc, Cell.record, Option.bind_eq_bind, Option.bind_some,
        ih hl (by omega), ih hr (by omega)]

theorem Holds.sequence {ob : AvlState K} {hdr : Addr} {t : BinaryTree (Cell K)} (H : Holds ob hdr t) :
    ob.sequence = some (keys t) := by
  obtain ⟨w, hw⟩ := H.load_root
  simp only [AvlState.sequence, hw, Option.bind_eq_bind, Option.bind_some]
  exact readKeys_spec H.focus.tree (Nat.lt_succ_of_lt H.height_lt)

/-- The links determine the tree. -/
theorem Rep.unique {h : Heap K} {p q : Ptr} {t u : BinaryTree (Cell K)} (ht : Rep h p t) (hu : Rep h q u)
    (hptr : ptr t = ptr u) : t = u := by
  induction t generalizing p q u with
  | nil =>
    cases u with
    | nil => rfl
    | node c l r => cases hptr
  | node c l r ihl ihr =>
    cases u with
    | nil => cases hptr
    | node d m s =>
      obtain ⟨hc, hl, hr⟩ := ht
      obtain ⟨hd, hm, hs⟩ := hu
      have haddr : c.addr = d.addr := Option.some.inj hptr
      rw [haddr, hd, Option.some.injEq] at hc
      simp only [Cell.record, AvlNode.mk.injEq] at hc
      obtain ⟨hkey, hleft, hright, _, hword⟩ := hc
      have hcell : c = d := by
        cases c
        cases d
        simp_all
      rw [hcell, ihl hl hm hleft.symm, ihr hr hs hright.symm]

theorem Holds.unique {ob : AvlState K} {hdr hdr' : Addr} {t u : BinaryTree (Cell K)} (H : Holds ob hdr t)
    (H' : Holds ob hdr' u) : t = u := by
  obtain ⟨w, hw⟩ := H.load_root
  obtain ⟨w', hw'⟩ := H'.load_root
  have hptr : ptr t = ptr u := by
    rw [hw] at hw'
    exact congrArg AvlNode.right (Option.some.inj hw')
  exact H.focus.tree.unique H'.focus.tree hptr

end IcecastCommon.Avl
