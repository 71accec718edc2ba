import IcecastCommon.Avl.Code
import IcecastCommon.Library.Context

/- `avl_verify`. Three walks each check one property of the nodes, but only the ranks count: the
   height that `avl_verify_balance` returns is dropped and `avl_verify_parent` returns nothing. The
   structures they walk are any that the child pointers span, with no assumption on what else the
   nodes hold. -/
namespace IcecastCommon.Avl

variable {K : Type}

/-! The walks. -/

/-- `avl_verify_balance`. -/
def avlVerifyBalance : Nat → Heap K → Ptr → Option Int
  | 0, _, _ => none
  | _ + 1, _, none => some 0
  | fuel + 1, h, some a => do
    let n ← h.load (some a)
    let lh ← avlVerifyBalance fuel h n.left
    let rh ← avlVerifyBalance fuel h n.right
    if rh - lh ≠ avlGetBalance n.rankAndBalance then some 0
    else if lh - rh > 1 ∨ lh - rh < -1 then some 0
    else some (1 + max lh rh)

/-- `avl_verify_parent`. -/
def avlVerifyParent : Nat → Heap K → Ptr → Ptr → Option Unit
  | 0, _, _, _ => none
  | fuel + 1, h, node, parent => do
    let n ← h.load node
    if n.parent ≠ parent then some ()
    else do
      let () ← (if n.left ≠ none then avlVerifyParent fuel h n.left node else some ())
      if n.right ≠ none then avlVerifyParent fuel h n.right node else some ()

/-- How a function ends: with a value, or in `exit` with this status. -/
inductive Ended (α : Type)
  | returned (a : α)
  | exited (status : Int)
deriving DecidableEq, Repr

/-- `avl_verify_rank`. The counts are `unsigned long`. -/
def avlVerifyRank : Nat → Heap K → Ptr → Option (Ended (BitVec 64))
  | 0, _, _ => none
  | _ + 1, _, none => some (.returned 0)
  | fuel + 1, h, some a => do
    let n ← h.load (some a)
    let left ← (if n.left ≠ none then avlVerifyRank fuel h n.left else some (.returned 0))
    match left with
    | .exited status => some (.exited status)
    | .returned numLeft =>
      let right ← (if n.right ≠ none then avlVerifyRank fuel h n.right else some (.returned 0))
      match right with
      | .exited status => some (.exited status)
      | .returned numRight =>
        if (avlGetRank n.rankAndBalance).setWidth 64 ≠ numLeft + 1 then some (.exited 1)
        else some (.returned (numLeft + numRight + 1))

/-- `avl_verify`. -/
def avlVerify (fuel : Nat) (ob : AvlState K) : Option (Ended Int) :=
  if ob.tree.length ≠ 0 then do
    let root ← ob.heap.load ob.tree.root
    let _ ← avlVerifyBalance fuel ob.heap root.right
    let () ← avlVerifyParent fuel ob.heap root.right ob.tree.root
    let ranks ← avlVerifyRank fuel ob.heap root.right
    match ranks with
    | .exited status => some (.exited status)
    | .returned _ => some (.returned 0)
  else some (.returned 0)

/-! Structures. -/

open Library BinaryTree

/-- A node where it is. -/
structure Site (K : Type) where
  addr : Addr
  node : AvlNode K

/-- The child pointers from `p` on span the tree of nodes. -/
def Spans (h : Heap K) : Ptr → BinaryTree (Site K) → Prop
  | p, nil => p = none
  | p, node s l r => p = some s.addr ∧ h.cell s.addr = some s.node ∧ Spans h s.node.left l ∧
      Spans h s.node.right r

/-- Every parent pointer goes to the parent. -/
def ParentsRight : Ptr → BinaryTree (Site K) → Prop
  | _, nil => True
  | par, node s l r => s.node.parent = par ∧ ParentsRight (some s.addr) l ∧ ParentsRight (some s.addr) r

/-- The stored balance of every node is the difference of the heights, and at most one. -/
abbrev BalancesRight (t : BinaryTree (Site K)) : Prop :=
  Balanced (fun s => avlGetBalance s.node.rankAndBalance) t

/-- Every rank is one plus the size of the left subtree. -/
abbrev RanksRight (t : BinaryTree (Site K)) : Prop :=
  LeftSizes (fun s n => rankOf s.node.rankAndBalance = n + 1) t

/-- What `avl_verify` is to check, for a tree that hangs below `par`. -/
structure StructureSound (par : Ptr) (t : BinaryTree (Site K)) : Prop where
  balances : BalancesRight t
  parents : ParentsRight par t
  ranks : RanksRight t

/-- The ranks pass the comparison of `unsigned long`s. -/
abbrev RanksPass (t : BinaryTree (Site K)) : Prop :=
  LeftSizes (fun s n => rankOf s.node.rankAndBalance = (n + 1) % 2 ^ 64) t

section
variable {h : Heap K} {t : BinaryTree (Site K)} {p par : Ptr}

theorem Spans.ne_none {s : Site K} {l r : BinaryTree (Site K)} (ht : Spans h p (node s l r)) : p ≠ none := by
  rw [ht.1]
  exact Option.some_ne_none _

/-- The walk over the balances ends whatever it finds. -/
theorem avlVerifyBalance_ends {fuel : Nat} (ht : Spans h p t) (hfuel : t.height < fuel) :
    ∃ n, avlVerifyBalance fuel h p = some n := by
  induction t generalizing p fuel with
  | nil =>
    obtain ⟨fuel, rfl⟩ : ∃ f, fuel = f + 1 := ⟨fuel - 1, by omega⟩
    rw [show p = none from ht]
    exact ⟨0, rfl⟩
  | node s l r ihl ihr =>
    obtain ⟨hp, hcell, hl, hr⟩ := ht
    obtain ⟨fuel, rfl⟩ : ∃ f, fuel = f + 1 := ⟨fuel - 1, by omega⟩
    simp only [height] at hfuel
    have hlfuel : l.height < fuel := by omega
    have hrfuel : r.height < fuel := by omega
    obtain ⟨lh, hlh⟩ := ihl hl hlfuel
    obtain ⟨rh, hrh⟩ := ihr hr hrfuel
    rw [hp, avlVerifyBalance]
    simp only [Heap.load_some, hcell, hlh, hrh, Option.bind_eq_bind, Option.bind_some]
    split
    · exact ⟨_, rfl⟩
    · split
      · exact ⟨_, rfl⟩
      · exact ⟨_, rfl⟩

/-- A walk that is only called where there is a child. -/
theorem walk_child {α : Type} {walk : Ptr → Option α} {q : Ptr} (d : α) (ht : Spans h q t)
    {x : α} (hnode : t ≠ nil → walk q = some x) (hnil : t = nil → x = d) :
    (if q ≠ none then walk q else some d) = some x := by
  cases t with
  | nil =>
    have hq : q = none := ht
    rw [if_neg (not_not_intro hq), hnil rfl]
  | node s l r => rw [if_pos ht.ne_none, hnode (by simp)]

/-- The walk over the parents ends on a structure with a node. -/
theorem avlVerifyParent_ends {fuel : Nat} (ht : Spans h p t) (hne : t ≠ nil) (hfuel : t.height < fuel) :
    avlVerifyParent fuel h p par = some () := by
  induction t generalizing p par fuel with
  | nil => exact absurd rfl hne
  | node s l r ihl ihr =>
    obtain ⟨hp, hcell, hl, hr⟩ := ht
    obtain ⟨fuel, rfl⟩ : ∃ f, fuel = f + 1 := ⟨fuel - 1, by omega⟩
    simp only [height] at hfuel
    have hleft := @walk_child _ _ _ _ (fun q => avlVerifyParent fuel h q (some s.addr)) _ () hl _
      (fun hn => ihl hl hn (by omega)) fun _ => rfl
    have hright := @walk_child _ _ _ _ (fun q => avlVerifyParent fuel h q (some s.addr)) _ () hr _
      (fun hn => ihr hr hn (by omega)) fun _ => rfl
    rw [hp, avlVerifyParent, Heap.load_some, hcell, Option.bind_eq_bind, Option.bind_some, hleft, hright]
    split <;> rfl

/-- It faults on one without. -/
theorem avlVerifyParent_none (fuel : Nat) : avlVerifyParent fuel h none par = none := by
  cases fuel with
  | zero => rfl
  | succ fuel => rfl

theorem rank_compare (w : BitVec 32) (n : Nat) :
    (avlGetRank w).setWidth 64 ≠ BitVec.ofNat 64 n + 1 ↔ rankOf w ≠ (n + 1) % 2 ^ 64 := by
  have hlt := rankOf_lt w
  rw [not_iff_not, ← BitVec.toNat_inj, BitVec.toNat_setWidth, BitVec.toNat_add, BitVec.toNat_ofNat]
  have hone : (1 : BitVec 64).toNat = 1 := rfl
  unfold rankOf at *
  rw [Nat.mod_eq_of_lt (by omega : (avlGetRank w).toNat < 2 ^ 64), hone]
  omega

/-- The walk over the ranks counts the nodes, or exits at a wrong rank. -/
theorem avlVerifyRank_eq {fuel : Nat} (ht : Spans h p t) (hfuel : t.height < fuel) :
    (RanksPass t → avlVerifyRank fuel h p = some (.returned (BitVec.ofNat 64 t.numNodes))) ∧
      (¬RanksPass t → avlVerifyRank fuel h p = some (.exited 1)) := by
  induction t generalizing p fuel with
  | nil =>
    obtain ⟨fuel, rfl⟩ : ∃ f, fuel = f + 1 := ⟨fuel - 1, by omega⟩
    rw [show p = none from ht]
    exact ⟨fun _ => rfl, fun hfail => absurd trivial hfail⟩
  | node s l r ihl ihr =>
    obtain ⟨hp, hcell, hl, hr⟩ := ht
    obtain ⟨fuel, rfl⟩ : ∃ f, fuel = f + 1 := ⟨fuel - 1, by omega⟩
    simp only [height] at hfuel
    have hlfuel : l.height < fuel := by omega
    have hrfuel : r.height < fuel := by omega
    obtain ⟨hlpass, hlfail⟩ := ihl hl hlfuel
    obtain ⟨hrpass, hrfail⟩ := ihr hr hrfuel
    have hchild {q : Ptr} {u : BinaryTree (Site K)} (hu : Spans h q u) (huf : u.height < fuel) :
        (if q ≠ none then avlVerifyRank fuel h q else some (.returned 0)) = avlVerifyRank fuel h q := by
      cases u with
      | nil =>
        obtain ⟨fuel, rfl⟩ : ∃ f, fuel = f + 1 := ⟨fuel - 1, by omega⟩
        rw [show q = none from hu]
        rfl
      | node s l r => rw [if_pos hu.ne_none]
    rw [hp, avlVerifyRank]
    simp only [Heap.load_some, hcell, Option.bind_eq_bind, Option.bind_some]
    rw [hchild hl (by omega)]
    by_cases hlp : RanksPass l
    · rw [hlpass hlp, Option.bind_some]
      dsimp only
      rw [hchild hr (by omega)]
      by_cases hrp : RanksPass r
      · rw [hrpass hrp, Option.bind_some]
        dsimp only
        have hroot : RanksPass (node s l r) ↔ rankOf s.node.rankAndBalance = (l.numNodes + 1) % 2 ^ 64 :=
          ⟨fun hpass => hpass.1, fun heq => ⟨heq, hlp, hrp⟩⟩
        have hcount : BitVec.ofNat 64 l.numNodes + BitVec.ofNat 64 r.numNodes + 1 =
            BitVec.ofNat 64 (node s l r).numNodes := by
          rw [numNodes, BitVec.ofNat_add, BitVec.ofNat_add]
          rfl
        rw [hroot]
        constructor
        · intro heq
          rw [if_neg (not_not_intro heq ∘ (rank_compare _ _).1), hcount]
        · intro hne
          rw [if_pos ((rank_compare _ _).2 hne)]
      · rw [hrfail hrp, Option.bind_some]
        exact ⟨fun hpass => absurd hpass.2.2 hrp, fun _ => rfl⟩
    · rw [hlfail hlp, Option.bind_some]
      exact ⟨fun hpass => absurd hpass.2.1 hlp, fun _ => rfl⟩

/-- The right ranks are those that pass where no left subtree is too large for an `unsigned long`. -/
theorem ranksRight_iff : RanksRight t ↔ RanksPass t ∧ LeftSizes (fun _ n => n + 1 < 2 ^ 64) t := by
  constructor
  · intro hr
    have hboth : LeftSizes (fun s n => rankOf s.node.rankAndBalance = (n + 1) % 2 ^ 64 ∧ n + 1 < 2 ^ 64) t := by
      refine hr.imp fun s n heq => ?_
      have hlt := rankOf_lt s.node.rankAndBalance
      omega
    exact ⟨hboth.imp fun _ _ h => h.1, hboth.imp fun _ _ h => h.2⟩
  · intro h
    exact (h.1.and h.2).imp fun _ _ h => h.1.trans (Nat.mod_eq_of_lt h.2)

end

/-- What `avl_verify` comes to: it fails at no balance and no parent pointer. -/
theorem avlVerify_passes {ob : AvlState K} {root : AvlNode K} {t : BinaryTree (Site K)} {fuel : Nat}
    (hlength : ob.tree.length ≠ 0) (hroot : ob.heap.load ob.tree.root = some root)
    (ht : Spans ob.heap root.right t) (hfuel : t.height < fuel) :
    avlVerify fuel ob = some (.returned 0) ↔ t ≠ nil ∧ RanksPass t := by
  obtain ⟨n, hbalance⟩ := avlVerifyBalance_ends ht hfuel
  obtain ⟨hpass, hfail⟩ := avlVerifyRank_eq ht hfuel
  rw [avlVerify, if_pos hlength, hroot]
  simp only [Option.bind_eq_bind, Option.bind_some, hbalance]
  by_cases hnil : t = nil
  · subst hnil
    rw [show root.right = none from ht, avlVerifyParent_none]
    exact iff_of_false (by simp) fun hboth => hboth.1 rfl
  · rw [avlVerifyParent_ends ht hnil hfuel, Option.bind_some]
    by_cases hranks : RanksPass t
    · rw [hpass hranks]
      exact iff_of_true rfl ⟨hnil, hranks⟩
    · rw [hfail hranks]
      exact iff_of_false (by simp) fun hboth => hranks hboth.2

/-- `avl_verify` passes exactly the sound structures where the structure has a node, and some rank fails or the
    balances and parents are right as well and no left subtree is too large to be counted. -/
theorem verify_checks (ob : AvlState K) (root : AvlNode K) (t : BinaryTree (Site K)) (fuel : Nat)
    (hlength : ob.tree.length ≠ 0) (hroot : ob.heap.load ob.tree.root = some root)
    (ht : Spans ob.heap root.right t) (hfuel : t.height < fuel) :
    (avlVerify fuel ob = some (.returned 0) ↔ StructureSound ob.tree.root t) ↔
      t ≠ nil ∧ (¬RanksPass t ∨
        BalancesRight t ∧ ParentsRight ob.tree.root t ∧ LeftSizes (fun _ n => n + 1 < 2 ^ 64) t) := by
  rw [avlVerify_passes hlength hroot ht hfuel]
  constructor
  · intro hiff
    have hnode : t ≠ nil := by
      rintro rfl
      exact (hiff.2 ⟨trivial, trivial, trivial⟩).1 rfl
    refine ⟨hnode, Or.symm (or_iff_not_imp_right.mpr fun hranks => ?_)⟩
    have hsound := hiff.1 ⟨hnode, not_not.mp hranks⟩
    exact ⟨hsound.balances, hsound.parents, (ranksRight_iff.mp hsound.ranks).2⟩
  · rintro ⟨hnode, hcases⟩
    constructor
    · rintro ⟨_, hranks⟩
      obtain ⟨hbalances, hparents, hsmall⟩ := hcases.resolve_left (not_not.mpr hranks)
      exact ⟨hbalances, hparents, ranksRight_iff.mpr ⟨hranks, hsmall⟩⟩
    · intro hsound
      exact ⟨hnode, (ranksRight_iff.mp hsound.ranks).1⟩

/-- The word with a balance and a rank. -/
def rankWord (balance : Int) (rank : BitVec 32) : BitVec 32 := avlSetRank (avlSetBalance 0 balance) rank

/-- The header at 0 with four nodes below it: 1 has the children 2 and 3, and 4 is the right child of 3. -/
def fourNodes : AvlState Nat :=
  { tree := { root := some 0, height := 0, length := 4, compareFun := fun _ _ => 0 }
    heap := ((((Heap.empty.put 0 ⟨none, none, some 1, none, 0⟩).put 1
      ⟨some 5, some 2, some 3, some 0, rankWord 1 2⟩).put 2 ⟨some 3, none, none, some 1, rankWord 0 1⟩).put 3
      ⟨some 7, none, some 4, some 1, rankWord 1 1⟩).put 4 ⟨some 9, none, none, some 3, rankWord 0 1⟩
    freed := [] }

/-- Their structure. -/
def fourSites : BinaryTree (Site Nat) :=
  node ⟨1, ⟨some 5, some 2, some 3, some 0, rankWord 1 2⟩⟩
    (node ⟨2, ⟨some 3, none, none, some 1, rankWord 0 1⟩⟩ nil nil)
    (node ⟨3, ⟨some 7, none, some 4, some 1, rankWord 1 1⟩⟩ nil
      (node ⟨4, ⟨some 9, none, none, some 3, rankWord 0 1⟩⟩ nil nil))

theorem verify_checks_four :
    avlVerify 4 fourNodes = some (.returned 0) ↔ StructureSound (some 0) fourSites := by
  have hspans : Spans fourNodes.heap (some 1) fourSites :=
    ⟨rfl, rfl, ⟨rfl, rfl, rfl, rfl⟩, rfl, rfl, rfl, rfl, rfl, rfl, rfl⟩
  apply (verify_checks fourNodes ⟨none, none, some 1, none, 0⟩ fourSites 4 (by decide) rfl hspans (by decide)).mpr
  refine ⟨by simp [fourSites], Or.inr ⟨?_, ?_, leftSizes_lt (by decide)⟩⟩
  · simp only [fourSites, BalancesRight, Balanced_node, Balanced_nil]
    decide
  · exact ⟨rfl, ⟨rfl, trivial, trivial⟩, rfl, trivial, rfl, trivial, trivial⟩

/-- The header at 0 with one node at 1, whose balance, parent and rank are given. -/
def oneNode (balance : Int) (parent : Ptr) (rank : BitVec 32) : AvlState Nat :=
  { tree := { root := some 0, height := 0, length := 1, compareFun := fun _ _ => 0 }
    heap := (Heap.empty.put 0 ⟨none, none, some 1, none, 0⟩).put 1
      ⟨some 7, none, none, parent, rankWord balance rank⟩
    freed := [] }

/-- Its structure. -/
def oneSite (balance : Int) (parent : Ptr) (rank : BitVec 32) : BinaryTree (Site Nat) :=
  node ⟨1, ⟨some 7, none, none, parent, rankWord balance rank⟩⟩ nil nil

/-- A node with the balance 1 and no parent passes. -/
theorem verify_passes_unsound :
    ¬(avlVerify 2 (oneNode 1 none 1) = some (.returned 0) ↔ StructureSound (some 0) (oneSite 1 none 1)) := by
  intro hiff
  have hparent : (none : Ptr) = some 0 := (hiff.1 rfl).parents.1
  cases hparent

end IcecastCommon.Avl
