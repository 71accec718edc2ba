import Mathlib.Tactic

/- The nodes of `avl.h` and the memory they live in. A node's rank and balance
   share one 32-bit word (`rank_and_balance`): the low two bits hold the balance
   plus one, the other thirty the rank. A pointer is an optional address (`none`
   is NULL), a heap maps the addresses handed out so far to nodes, and every
   access through NULL or through an address that is not allocated is a fault
   (`none`). No address is handed out twice: `avl.c` compares pointers to live
   nodes only. -/
namespace IcecastCommon.Avl

/-! The packed word. -/

/-- `AVL_GET_BALANCE`. -/
def avlGetBalance (w : BitVec 32) : Int := ((w &&& 3#32) - 1#32).toInt

/-- `AVL_GET_RANK`. -/
def avlGetRank (w : BitVec 32) : BitVec 32 := w >>> 2

/-- `AVL_SET_BALANCE`. -/
def avlSetBalance (w : BitVec 32) (b : Int) : BitVec 32 :=
  (w &&& ~~~3#32) ||| BitVec.ofInt 32 (b + 1)

/-- `AVL_SET_RANK`. -/
def avlSetRank (w r : BitVec 32) : BitVec 32 := (w &&& 3#32) ||| (r <<< 2)

theorem and_three_toNat (w : BitVec 32) : (w &&& 3#32).toNat = w.toNat % 4 := by
  rw [BitVec.toNat_and]
  exact Nat.and_two_pow_sub_one_eq_mod w.toNat 2

/-- Clearing the two low bits. -/
theorem and_not_three (w : BitVec 32) : (w &&& ~~~3#32) = (w >>> 2) <<< 2 := by
  ext i hi
  simp only [BitVec.getElem_and, BitVec.getElem_not, BitVec.getElem_shiftLeft]
  by_cases h2 : i < 2
  · interval_cases i <;> simp
  · have h3 : (3#32)[i] = false := by
      simp only [BitVec.getElem_eq_testBit_toNat]
      apply Nat.testBit_lt_two_pow
      calc (3#32).toNat < 2 ^ 2 := by decide
        _ ≤ 2 ^ i := Nat.pow_le_pow_right (by omega) (by omega)
    simp [h2, h3]
    congr 1
    omega

theorem and_not_three_toNat (w : BitVec 32) : (w &&& ~~~3#32).toNat = (w.toNat / 4) <<< 2 := by
  rw [and_not_three, BitVec.toNat_shiftLeft, BitVec.toNat_ushiftRight, Nat.shiftLeft_eq,
    Nat.shiftRight_eq_div_pow, Nat.shiftLeft_eq]
  have := w.isLt
  omega

/-- Disjoint bits: a shifted number and one below four. -/
theorem shift_or_low (a b : Nat) (h : b < 4) : (a <<< 2) ||| b = 4 * a + b := by
  rw [← Nat.shiftLeft_add_eq_or_of_lt (i := 2) h, Nat.shiftLeft_eq]
  omega

theorem avlGetBalance_eq (w : BitVec 32) : avlGetBalance w = (w.toNat % 4 : Nat) - 1 := by
  have h := and_three_toNat w
  have hlt : w.toNat % 4 < 4 := Nat.mod_lt _ (by decide)
  unfold avlGetBalance
  rw [BitVec.toInt_sub]
  have h1 : (w &&& 3#32).toInt = (w.toNat % 4 : Nat) := by
    rw [BitVec.toInt_eq_toNat_of_lt (by rw [h]; omega), h]
  rw [h1]
  simp [Int.bmod]
  omega

theorem avlGetRank_toNat (w : BitVec 32) : (avlGetRank w).toNat = w.toNat / 4 := by
  rw [avlGetRank, BitVec.toNat_ushiftRight, Nat.shiftRight_eq_div_pow]

theorem avlSetRank_toNat (w r : BitVec 32) :
    (avlSetRank w r).toNat = 4 * (r.toNat % 2 ^ 30) + w.toNat % 4 := by
  have hr : (r <<< 2).toNat = (r.toNat % 2 ^ 30) <<< 2 := by
    rw [BitVec.toNat_shiftLeft, Nat.shiftLeft_eq, Nat.shiftLeft_eq]
    omega
  rw [avlSetRank, BitVec.toNat_or, and_three_toNat, hr, Nat.or_comm]
  exact shift_or_low _ _ (Nat.mod_lt _ (by decide))

theorem avlSetBalance_toNat (w : BitVec 32) {b : Int} (h : -1 ≤ b ∧ b ≤ 1) :
    (avlSetBalance w b).toNat = 4 * (w.toNat / 4) + (b + 1).toNat := by
  have hb : (BitVec.ofInt 32 (b + 1)).toNat = (b + 1).toNat := by
    rw [BitVec.toNat_ofInt]
    omega
  rw [avlSetBalance, BitVec.toNat_or, and_not_three_toNat, hb]
  exact shift_or_low _ _ (by omega)

/-! The two fields do not disturb each other. -/

@[simp] theorem avlGetBalance_setRank (w r : BitVec 32) :
    avlGetBalance (avlSetRank w r) = avlGetBalance w := by
  rw [avlGetBalance_eq, avlGetBalance_eq, avlSetRank_toNat]
  omega

theorem avlGetBalance_setBalance (w : BitVec 32) {b : Int} (h : -1 ≤ b ∧ b ≤ 1) :
    avlGetBalance (avlSetBalance w b) = b := by
  rw [avlGetBalance_eq, avlSetBalance_toNat w h]
  omega

/-- The rank as a number. -/
def rankOf (w : BitVec 32) : Nat := (avlGetRank w).toNat

theorem rankOf_lt (w : BitVec 32) : rankOf w < 2 ^ 30 := by
  have := w.isLt
  rw [rankOf, avlGetRank_toNat]
  omega

@[simp] theorem rankOf_setRank (w r : BitVec 32) : rankOf (avlSetRank w r) = r.toNat % 2 ^ 30 := by
  rw [rankOf, avlGetRank_toNat, avlSetRank_toNat]
  omega

theorem rankOf_setBalance (w : BitVec 32) {b : Int} (h : -1 ≤ b ∧ b ≤ 1) :
    rankOf (avlSetBalance w b) = rankOf w := by
  rw [rankOf, rankOf, avlGetRank_toNat, avlGetRank_toNat, avlSetBalance_toNat w h]
  omega

theorem avlGetRank_setBalance (w : BitVec 32) {b : Int} (h : -1 ≤ b ∧ b ≤ 1) :
    avlGetRank (avlSetBalance w b) = avlGetRank w :=
  BitVec.eq_of_toNat_eq (rankOf_setBalance w h)

theorem avlSetBalance_setRank (w r : BitVec 32) {b : Int} (h : -1 ≤ b ∧ b ≤ 1) :
    avlSetBalance (avlSetRank w r) b = avlSetRank (avlSetBalance w b) r := by
  apply BitVec.eq_of_toNat_eq
  rw [avlSetBalance_toNat _ h, avlSetRank_toNat, avlSetRank_toNat, avlSetBalance_toNat _ h]
  omega

/-! Memory. -/

/-- Address of an allocated node. -/
abbrev Addr := Nat

/-- A C pointer to a node: `none` is NULL. -/
abbrev Ptr := Option Addr

/-- `struct avl_node_tag`; a key is a `void *`, `none` for NULL. -/
structure AvlNode (K : Type) where
  key : Option K
  left : Ptr
  right : Ptr
  parent : Ptr
  rankAndBalance : BitVec 32
  deriving DecidableEq, Repr

/-- The nodes allocated so far, and the next address to hand out. -/
structure Heap (K : Type) where
  cell : Addr → Option (AvlNode K)
  next : Addr

namespace Heap
variable {K : Type}

def empty : Heap K := { cell := fun _ => none, next := 0 }

/-- Writing a whole node. -/
def put (h : Heap K) (a : Addr) (n : AvlNode K) : Heap K :=
  { h with cell := Function.update h.cell a (some n) }

/-- Dereferencing a pointer. -/
def load (h : Heap K) (p : Ptr) : Option (AvlNode K) := p.bind h.cell

/-- Assigning to fields of the node a pointer designates. -/
def modify (h : Heap K) (p : Ptr) (f : AvlNode K → AvlNode K) : Option (Heap K) := do
  let a ← p
  let n ← h.cell a
  some (h.put a (f n))

/-- `free`. -/
def free (h : Heap K) (p : Ptr) : Option (Heap K) := do
  let a ← p
  let _ ← h.cell a
  some { h with cell := Function.update h.cell a none }

@[simp] theorem put_next (h : Heap K) (a : Addr) (n : AvlNode K) : (h.put a n).next = h.next := rfl

theorem put_cell (h : Heap K) (a b : Addr) (n : AvlNode K) :
    (h.put a n).cell b = if b = a then some n else h.cell b := by
  simp [put, Function.update_apply]

@[simp] theorem put_cell_self (h : Heap K) (a : Addr) (n : AvlNode K) : (h.put a n).cell a = some n := by
  simp [put_cell]

@[simp] theorem put_put (h : Heap K) (a : Addr) (m n : AvlNode K) :
    (h.put a m).put a n = h.put a n := by
  simp [put]

theorem put_cell_of_ne {h : Heap K} {a b : Addr} {n : AvlNode K} (hne : b ≠ a) :
    (h.put a n).cell b = h.cell b := by
  simp [put_cell, hne]

@[simp] theorem load_none (h : Heap K) : h.load none = none := rfl
@[simp] theorem load_some (h : Heap K) (a : Addr) : h.load (some a) = h.cell a := rfl

theorem modify_eq {h : Heap K} {a : Addr} {n : AvlNode K} (hn : h.cell a = some n)
    (f : AvlNode K → AvlNode K) : h.modify (some a) f = some (h.put a (f n)) := by
  simp [modify, hn]

/-- `AVL_GET_RANK` of the node at `p`. -/
def rank (h : Heap K) (p : Ptr) : Option (BitVec 32) :=
  (h.load p).map fun n => avlGetRank n.rankAndBalance

/-- `AVL_GET_BALANCE` of the node at `p`. -/
def balance (h : Heap K) (p : Ptr) : Option Int :=
  (h.load p).map fun n => avlGetBalance n.rankAndBalance

/-- `AVL_SET_RANK` of the node at `p`. -/
def setRank (h : Heap K) (p : Ptr) (r : BitVec 32) : Option (Heap K) :=
  h.modify p fun n => { n with rankAndBalance := avlSetRank n.rankAndBalance r }

/-- `AVL_SET_BALANCE` of the node at `p`. -/
def setBalance (h : Heap K) (p : Ptr) (b : Int) : Option (Heap K) :=
  h.modify p fun n => { n with rankAndBalance := avlSetBalance n.rankAndBalance b }

section Known
variable {h : Heap K} {a : Addr} {n : AvlNode K} (hn : h.cell a = some n)
include hn

theorem rank_eq : h.rank (some a) = some (avlGetRank n.rankAndBalance) := by
  simp [rank, hn]

theorem balance_eq : h.balance (some a) = some (avlGetBalance n.rankAndBalance) := by
  simp [balance, hn]

theorem setRank_eq (r : BitVec 32) : h.setRank (some a) r =
    some (h.put a { n with rankAndBalance := avlSetRank n.rankAndBalance r }) := modify_eq hn _

theorem setBalance_eq (b : Int) : h.setBalance (some a) b =
    some (h.put a { n with rankAndBalance := avlSetBalance n.rankAndBalance b }) := modify_eq hn _

end Known

/-- The two heaps differ at most in the cells of `l`. -/
def AgreeOff (l : List Addr) (h h' : Heap K) : Prop :=
  h'.next = h.next ∧ ∀ a, a ∉ l → h'.cell a = h.cell a

theorem AgreeOff.refl (l : List Addr) (h : Heap K) : AgreeOff l h h := ⟨rfl, fun _ _ => rfl⟩

theorem AgreeOff.trans {l : List Addr} {h₁ h₂ h₃ : Heap K} (h12 : AgreeOff l h₁ h₂)
    (h23 : AgreeOff l h₂ h₃) : AgreeOff l h₁ h₃ :=
  ⟨h23.1.trans h12.1, fun a ha => (h23.2 a ha).trans (h12.2 a ha)⟩

theorem AgreeOff.mono {l m : List Addr} {h h' : Heap K} (hh : AgreeOff l h h')
    (hlm : ∀ a ∈ l, a ∈ m) : AgreeOff m h h' :=
  ⟨hh.1, fun a ha => hh.2 a fun hm => ha (hlm a hm)⟩

theorem agreeOff_put {l : List Addr} {h : Heap K} {a : Addr} {n : AvlNode K} (ha : a ∈ l) :
    AgreeOff l h (h.put a n) :=
  ⟨rfl, fun _ hb => put_cell_of_ne fun e => hb (e ▸ ha)⟩

end Heap

end IcecastCommon.Avl
