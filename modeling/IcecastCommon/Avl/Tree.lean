import IcecastCommon.Avl.Node
import IcecastCommon.Library.Context

/- The trees the nodes of `avl.c` form, without their pointers: what insertion
   and deletion do to a tree whose nodes carry an address, a key and the packed
   word. `Insert` and `Delete` prove that the heap operations do exactly this;
   here are the operations on trees and what they do to the balance, to the ranks
   and to the sequence of keys. -/
namespace IcecastCommon.Avl
open Library BinaryTree

variable {K : Type}

/-- What a node holds besides its links. -/
structure Cell (K : Type) where
  addr : Addr
  key : Option K
  word : BitVec 32

namespace Cell

def bal (c : Cell K) : Int := avlGetBalance c.word

/-- The rank the word records: a number below `2 ^ 30`. -/
def rank (c : Cell K) : Nat := rankOf c.word

def setBal (c : Cell K) (b : Int) : Cell K := { c with word := avlSetBalance c.word b }
def setRank (c : Cell K) (r : BitVec 32) : Cell K := { c with word := avlSetRank c.word r }

/-- The rank with `r` added or subtracted. -/
def addRank (c : Cell K) (r : BitVec 32) : Cell K := c.setRank (avlGetRank c.word + r)
def subRank (c : Cell K) (r : BitVec 32) : Cell K := c.setRank (avlGetRank c.word - r)

@[simp] theorem setBal_addr (c : Cell K) (b : Int) : (c.setBal b).addr = c.addr := rfl
@[simp] theorem setBal_key (c : Cell K) (b : Int) : (c.setBal b).key = c.key := rfl
@[simp] theorem setRank_addr (c : Cell K) (r : BitVec 32) : (c.setRank r).addr = c.addr := rfl
@[simp] theorem setRank_key (c : Cell K) (r : BitVec 32) : (c.setRank r).key = c.key := rfl
@[simp] theorem setRank_bal (c : Cell K) (r : BitVec 32) : (c.setRank r).bal = c.bal :=
  avlGetBalance_setRank ..
@[simp] theorem addRank_addr (c : Cell K) (r : BitVec 32) : (c.addRank r).addr = c.addr := rfl
@[simp] theorem addRank_key (c : Cell K) (r : BitVec 32) : (c.addRank r).key = c.key := rfl
@[simp] theorem addRank_bal (c : Cell K) (r : BitVec 32) : (c.addRank r).bal = c.bal := setRank_bal ..
@[simp] theorem subRank_addr (c : Cell K) (r : BitVec 32) : (c.subRank r).addr = c.addr := rfl
@[simp] theorem subRank_key (c : Cell K) (r : BitVec 32) : (c.subRank r).key = c.key := rfl
@[simp] theorem subRank_bal (c : Cell K) (r : BitVec 32) : (c.subRank r).bal = c.bal := setRank_bal ..

theorem bal_setBal (c : Cell K) {b : Int} (h : -1 ≤ b ∧ b ≤ 1) : (c.setBal b).bal = b :=
  avlGetBalance_setBalance _ h

@[simp] theorem bal_setBal_zero (c : Cell K) : (c.setBal 0).bal = 0 := bal_setBal c (by decide)
@[simp] theorem bal_setBal_sign (c : Cell K) (d : Side) : (c.setBal d.sign).bal = d.sign :=
  bal_setBal c d.sign_bounds
@[simp] theorem bal_setBal_neg_sign (c : Cell K) (d : Side) : (c.setBal (-d.sign)).bal = -d.sign := by
  rw [← Side.sign_flip]
  exact bal_setBal_sign c d.flip

@[simp] theorem bal_setBal_ite_sign (c : Cell K) (P : Prop) [Decidable P] (d : Side) :
    (c.setBal (if P then d.sign else 0)).bal = if P then d.sign else 0 := by
  split <;> simp
@[simp] theorem bal_setBal_ite_neg_sign (c : Cell K) (P : Prop) [Decidable P] (d : Side) :
    (c.setBal (if P then -d.sign else 0)).bal = if P then -d.sign else 0 := by
  split <;> simp

theorem rank_setBal (c : Cell K) {b : Int} (h : -1 ≤ b ∧ b ≤ 1) : (c.setBal b).rank = c.rank :=
  rankOf_setBalance _ h

@[simp] theorem rank_setBal_zero (c : Cell K) : (c.setBal 0).rank = c.rank := rank_setBal c (by decide)
@[simp] theorem rank_setBal_sign (c : Cell K) (d : Side) : (c.setBal d.sign).rank = c.rank :=
  rank_setBal c d.sign_bounds
@[simp] theorem rank_setBal_neg_sign (c : Cell K) (d : Side) : (c.setBal (-d.sign)).rank = c.rank := by
  rw [← Side.sign_flip]
  exact rank_setBal_sign c d.flip

theorem rank_lt (c : Cell K) : c.rank < 2 ^ 30 := rankOf_lt _

theorem rank_addRank (c : Cell K) (r : BitVec 32) :
    (c.addRank r).rank = (c.rank + r.toNat) % 2 ^ 30 := by
  have h : rankOf (avlSetRank c.word (avlGetRank c.word + r)) = _ := rankOf_setRank _ _
  rw [BitVec.toNat_add] at h
  rw [rank, addRank, setRank, h, rank, rankOf]
  omega

theorem rank_subRank (c : Cell K) (r : BitVec 32) :
    (c.subRank r).rank = (c.rank + (2 ^ 32 - r.toNat)) % 2 ^ 30 := by
  have h : rankOf (avlSetRank c.word (avlGetRank c.word - r)) = _ := rankOf_setRank _ _
  rw [BitVec.toNat_sub] at h
  rw [rank, subRank, setRank, h, rank, rankOf]
  omega

theorem rank_addRank_one (c : Cell K) : (c.addRank 1).rank = (c.rank + 1) % 2 ^ 30 := rank_addRank c 1

theorem rank_subRank_one (c : Cell K) : (c.subRank 1).rank = (c.rank + (2 ^ 32 - 1)) % 2 ^ 30 :=
  rank_subRank c 1

/-- The rank as `AVL_GET_RANK` returns it. -/
theorem getRank_toNat (c : Cell K) : (avlGetRank c.word).toNat = c.rank := rfl

end Cell

/-- The node records, up to `2 ^ 30`, one more than the size of its left subtree. -/
def RankIs (c : Cell K) (n : Nat) : Prop := c.rank = (n + 1) % 2 ^ 30

/-- The tree's balances and heights agree and no balance is off by two. -/
abbrev AvlBalanced (t : BinaryTree (Cell K)) : Prop := Balanced Cell.bal t

/-- Every rank is right up to `2 ^ 30`. -/
abbrev AvlRanked (t : BinaryTree (Cell K)) : Prop := LeftSizes RankIs t

theorem avlBalanced_join (d : Side) (a : Cell K) (x y : BinaryTree (Cell K)) :
    AvlBalanced (join d a x y) ↔ a.bal = d.sign * ((x.height : Int) - y.height) ∧
      -1 ≤ a.bal ∧ a.bal ≤ 1 ∧ AvlBalanced x ∧ AvlBalanced y := Balanced_join ..

theorem avlBalanced_plug (fs : List (Frame (Cell K))) (t : BinaryTree (Cell K)) :
    AvlBalanced (plug fs t) ↔ Fits Cell.bal fs t.height ∧ AvlBalanced t := balanced_plug ..

/-- The keys in order. -/
def keys (t : BinaryTree (Cell K)) : List (Option K) := (inorder t).map Cell.key

/-- The addresses in order. -/
def addrs (t : BinaryTree (Cell K)) : List Addr := (inorder t).map Cell.addr

/-! Rotations. The side `e` is the one the rotated child is on: `e = left` is a
right rotation. Only the ranks change. -/

/-- `join e s (join e r a b) c` rotated: `r` comes up. -/
def rotateSingle (e : Side) (s r : Cell K) (a b c : BinaryTree (Cell K)) : BinaryTree (Cell K) :=
  match e with
  | .left => join .left r a (join .left (s.subRank (avlGetRank r.word)) b c)
  | .right => join .right (r.addRank (avlGetRank s.word)) a (join .right s b c)

/-- `join e s (join e r a (join e p x y)) c` rotated twice: `p` comes up. -/
def rotateDouble (e : Side) (s r p : Cell K) (a x y c : BinaryTree (Cell K)) : BinaryTree (Cell K) :=
  match e with
  | .left =>
    let p' := p.addRank (avlGetRank r.word)
    join .left p' (join .left r a x) (join .left (s.subRank (avlGetRank p'.word)) y c)
  | .right =>
    let r' := r.subRank (avlGetRank p.word)
    join .right (p.addRank (avlGetRank s.word)) (join .right r' a x) (join .right s y c)

/-- A projection of cells that the packed word does not enter. -/
def WordFree {β : Type} (π : Cell K → β) : Prop := ∀ c w, π { c with word := w } = π c

theorem WordFree.setBal {β : Type} {π : Cell K → β} (h : WordFree π) (c : Cell K) (b : Int) :
    π (c.setBal b) = π c := h c _
theorem WordFree.addRank {β : Type} {π : Cell K → β} (h : WordFree π) (c : Cell K) (r : BitVec 32) :
    π (c.addRank r) = π c := h c _
theorem WordFree.subRank {β : Type} {π : Cell K → β} (h : WordFree π) (c : Cell K) (r : BitVec 32) :
    π (c.subRank r) = π c := h c _

theorem wordFree_key : WordFree (Cell.key : Cell K → Option K) := fun _ _ => rfl
theorem wordFree_addr : WordFree (Cell.addr : Cell K → Addr) := fun _ _ => rfl

theorem rotateSingle_inorder {β : Type} {π : Cell K → β} (hπ : WordFree π) (e : Side) (s r : Cell K)
    (a b c : BinaryTree (Cell K)) :
    (inorder (rotateSingle e s r a b c)).map π = (inorder (join e s (join e r a b) c)).map π := by
  cases e <;> simp [rotateSingle, hπ.addRank, hπ.subRank]

theorem rotateDouble_inorder {β : Type} {π : Cell K → β} (hπ : WordFree π) (e : Side) (s r p : Cell K)
    (a x y c : BinaryTree (Cell K)) :
    (inorder (rotateDouble e s r p a x y c)).map π =
      (inorder (join e s (join e r a (join e p x y)) c)).map π := by
  cases e <;> simp [rotateDouble, hπ.addRank, hπ.subRank]

theorem rotateSingle_balanced (e : Side) (s r : Cell K) (a b c : BinaryTree (Cell K)) :
    AvlBalanced (rotateSingle e s r a b c) ↔ AvlBalanced (join e r a (join e s b c)) := by
  cases e <;> simp [rotateSingle]

theorem rotateDouble_balanced (e : Side) (s r p : Cell K) (a x y c : BinaryTree (Cell K)) :
    AvlBalanced (rotateDouble e s r p a x y c) ↔
      AvlBalanced (join e p (join e r a x) (join e s y c)) := by
  cases e <;> simp [rotateDouble]

@[simp] theorem rotateSingle_height (e : Side) (s r : Cell K) (a b c : BinaryTree (Cell K)) :
    (rotateSingle e s r a b c).height = max a.height (max b.height c.height + 1) + 1 := by
  cases e <;> simp only [rotateSingle, height_join]

@[simp] theorem rotateDouble_height (e : Side) (s r p : Cell K) (a x y c : BinaryTree (Cell K)) :
    (rotateDouble e s r p a x y c).height =
      max (max a.height x.height + 1) (max y.height c.height + 1) + 1 := by
  cases e <;> simp only [rotateDouble, height_join]

/-- A single rotation moves the rank by what the moved node records. -/
theorem rotateSingle_ranked {e : Side} {s r : Cell K} {a b c : BinaryTree (Cell K)}
    (h : AvlRanked (join e s (join e r a b) c)) : AvlRanked (rotateSingle e s r a b c) := by
  cases e with
  | left =>
    simp only [join_left, LeftSizes_node, RankIs, numNodes, rotateSingle, Cell.rank_subRank,
      Cell.getRank_toNat] at h ⊢
    refine ⟨h.2.1.1, h.2.1.2.1, ?_, h.2.1.2.2, h.2.2⟩
    omega
  | right =>
    simp only [join_right, LeftSizes_node, RankIs, numNodes, rotateSingle, Cell.rank_addRank,
      Cell.getRank_toNat] at h ⊢
    refine ⟨?_, ⟨h.1, h.2.1, h.2.2.2.1⟩, h.2.2.2.2⟩
    omega

/-- A double rotation uses the first updated rank in the second update. -/
theorem rotateDouble_ranked {e : Side} {s r p : Cell K} {a x y c : BinaryTree (Cell K)}
    (h : AvlRanked (join e s (join e r a (join e p x y)) c)) :
    AvlRanked (rotateDouble e s r p a x y c) := by
  cases e with
  | left =>
    simp only [join_left, LeftSizes_node, RankIs, numNodes, rotateDouble, Cell.rank_addRank,
      Cell.rank_subRank, Cell.getRank_toNat] at h ⊢
    obtain ⟨hs, ⟨hr, ha, hp, hx, hy⟩, hc⟩ := h
    refine ⟨?_, ⟨hr, ha, hx⟩, ?_, hy, hc⟩ <;> omega
  | right =>
    simp only [join_right, LeftSizes_node, RankIs, numNodes, rotateDouble, Cell.rank_addRank,
      Cell.rank_subRank, Cell.getRank_toNat] at h ⊢
    obtain ⟨hs, hc, hr, ⟨hp, hy, hx⟩, ha⟩ := h
    refine ⟨?_, ⟨hs, hc, hy⟩, ?_, hx, ha⟩ <;> omega

end IcecastCommon.Avl
