import Mathlib.Tactic
import Mathlib.Data.Tree.Basic

/- Binary trees taken apart at a subtree. A context is the path from a hole up to
   the root, innermost step first; each step (`Frame`) records which child the
   hole is in, the value of the parent and the other child. `plug` closes a
   context over a tree. The facts here say how the in-order sequence, the size
   and the balance of a plugged tree split between the context and the tree, and
   bound the height and the right spine of a balanced tree by its size. -/
namespace IcecastCommon.Library

open BinaryTree

variable {α β : Type}

/-- The values of a tree, left to right. -/
def inorder : BinaryTree α → List α
  | nil => []
  | node a l r => inorder l ++ a :: inorder r

@[simp] theorem inorder_nil : inorder (nil : BinaryTree α) = [] := rfl
@[simp] theorem inorder_node (a : α) (l r : BinaryTree α) :
    inorder (node a l r) = inorder l ++ a :: inorder r := rfl

theorem inorder_length : ∀ t : BinaryTree α, (inorder t).length = t.numNodes
  | nil => rfl
  | node _ l r => by
    simp only [inorder_node, List.length_append, List.length_cons, inorder_length l, inorder_length r,
      numNodes]
    omega

/-- Which child of its parent a subtree is. -/
inductive Side where
  | left
  | right
  deriving DecidableEq, Repr

namespace Side

def flip : Side → Side
  | left => right
  | right => left

/-- The balance of a node that is one level deeper on this side. -/
def sign : Side → Int
  | left => -1
  | right => 1

@[simp] theorem flip_left : left.flip = right := rfl
@[simp] theorem flip_right : right.flip = left := rfl
@[simp] theorem flip_flip (d : Side) : d.flip.flip = d := by cases d <;> rfl
@[simp] theorem sign_left : left.sign = -1 := rfl
@[simp] theorem sign_right : right.sign = 1 := rfl
@[simp] theorem sign_flip (d : Side) : d.flip.sign = -d.sign := by cases d <;> rfl

theorem sign_bounds (d : Side) : -1 ≤ d.sign ∧ d.sign ≤ 1 := by cases d <;> decide
theorem neg_sign_bounds (d : Side) : -1 ≤ -d.sign ∧ -d.sign ≤ 1 := by cases d <;> decide

end Side

/-- A node with `x` as its child on side `d` and `y` as the other one. -/
def join (d : Side) (a : α) (x y : BinaryTree α) : BinaryTree α :=
  match d with
  | .left => node a x y
  | .right => node a y x

@[simp] theorem join_left (a : α) (x y : BinaryTree α) : join .left a x y = node a x y := rfl
@[simp] theorem join_right (a : α) (x y : BinaryTree α) : join .right a x y = node a y x := rfl

theorem join_flip (d : Side) (a : α) (x y : BinaryTree α) : join d.flip a x y = join d a y x := by
  cases d <;> rfl

/-- Every node is a join on either side. -/
theorem exists_join (d : Side) {t : BinaryTree α} (h : t ≠ nil) : ∃ a x y, t = join d a x y := by
  cases t with
  | nil => exact absurd rfl h
  | node a l r => cases d with
    | left => exact ⟨a, l, r, rfl⟩
    | right => exact ⟨a, r, l, rfl⟩

/-- The root of a tree, its child on side `d` and its other child. -/
def view (d : Side) : BinaryTree α → Option (α × BinaryTree α × BinaryTree α)
  | nil => none
  | node a l r =>
    match d with
    | .left => some (a, l, r)
    | .right => some (a, r, l)

@[simp] theorem view_nil (d : Side) : view d (nil : BinaryTree α) = none := rfl

@[simp] theorem view_join (d : Side) (a : α) (x y : BinaryTree α) :
    view d (join d a x y) = some (a, x, y) := by
  cases d <;> rfl

@[simp] theorem height_join (d : Side) (a : α) (x y : BinaryTree α) :
    (join d a x y).height = max x.height y.height + 1 := by
  cases d <;> simp [Nat.max_comm]

@[simp] theorem numNodes_join (d : Side) (a : α) (x y : BinaryTree α) :
    (join d a x y).numNodes = x.numNodes + y.numNodes + 1 := by
  cases d <;> simp [Nat.add_comm]

/-- One step of a path: the hole is the `side` child of a node holding `value`. -/
structure Frame (α : Type) where
  side : Side
  value : α
  sibling : BinaryTree α

/-- The parent with `t` in the hole. -/
def Frame.plug (f : Frame α) (t : BinaryTree α) : BinaryTree α := join f.side f.value t f.sibling

/-- The whole tree around a hole. -/
def plug : List (Frame α) → BinaryTree α → BinaryTree α
  | [], t => t
  | f :: fs, t => plug fs (f.plug t)

@[simp] theorem plug_nil (t : BinaryTree α) : plug [] t = t := rfl
@[simp] theorem plug_cons (f : Frame α) (fs : List (Frame α)) (t : BinaryTree α) :
    plug (f :: fs) t = plug fs (f.plug t) := rfl

theorem plug_append (fs gs : List (Frame α)) (t : BinaryTree α) :
    plug (fs ++ gs) t = plug gs (plug fs t) := by
  induction fs generalizing t with
  | nil => rfl
  | cons f fs ih => simp [ih]

/-! In-order sequences. -/

/-- The values of one step left of the hole. -/
def Frame.before (f : Frame α) : List α :=
  match f.side with
  | .left => []
  | .right => inorder f.sibling ++ [f.value]

/-- The values of one step right of the hole. -/
def Frame.after (f : Frame α) : List α :=
  match f.side with
  | .left => f.value :: inorder f.sibling
  | .right => []

theorem Frame.inorder_plug (f : Frame α) (t : BinaryTree α) :
    inorder (f.plug t) = f.before ++ inorder t ++ f.after := by
  cases f with
  | mk side a s => cases side <;> simp [Frame.plug, Frame.before, Frame.after]

/-- The values left of the hole. -/
def before : List (Frame α) → List α
  | [] => []
  | f :: fs => before fs ++ f.before

/-- The values right of the hole. -/
def after : List (Frame α) → List α
  | [] => []
  | f :: fs => f.after ++ after fs

theorem inorder_plug (fs : List (Frame α)) (t : BinaryTree α) :
    inorder (plug fs t) = before fs ++ inorder t ++ after fs := by
  induction fs generalizing t with
  | nil => simp [before, after]
  | cons f fs ih => simp [ih, Frame.inorder_plug, before, after]

/-- The values on a path and beside it, in no particular order. -/
def around : List (Frame α) → List α
  | [] => []
  | f :: fs => f.value :: (inorder f.sibling ++ around fs)

theorem inorder_plug_perm (fs : List (Frame α)) (t : BinaryTree α) :
    (inorder (plug fs t)).Perm (around fs ++ inorder t) := by
  classical
  induction fs generalizing t with
  | nil => simp [around]
  | cons f fs ih =>
    refine (ih (f.plug t)).trans (List.perm_iff_count.mpr fun x => ?_)
    cases f with
    | mk side a s =>
      cases side <;> simp only [Frame.plug, join_left, join_right, inorder_node, around,
        List.cons_append, List.count_append, List.count_cons] <;> omega

/-! Size. -/

/-- Trees with the same sequence of values, up to a projection, have the same size. -/
theorem numNodes_eq_of_inorder {π : α → β} {s t : BinaryTree α}
    (h : (inorder s).map π = (inorder t).map π) : s.numNodes = t.numNodes := by
  have := congrArg List.length h
  simpa [inorder_length] using this

/-- The number of nodes outside the hole. -/
def outside : List (Frame α) → Nat
  | [] => 0
  | f :: fs => f.sibling.numNodes + 1 + outside fs

theorem numNodes_plug (fs : List (Frame α)) (t : BinaryTree α) :
    (plug fs t).numNodes = outside fs + t.numNodes := by
  induction fs generalizing t with
  | nil => simp [outside]
  | cons f fs ih =>
    rw [plug_cons, ih, Frame.plug, numNodes_join, outside]
    omega

theorem length_le_outside (fs : List (Frame α)) : fs.length ≤ outside fs := by
  induction fs with
  | nil => simp [outside]
  | cons f fs ih => simp [outside]; omega

/-! Balance. -/

/-- Every node records the height of its right subtree less that of its left one,
and the two differ by at most one. -/
def Balanced (bal : α → Int) : BinaryTree α → Prop
  | nil => True
  | node a l r =>
    bal a = (r.height : Int) - l.height ∧ -1 ≤ bal a ∧ bal a ≤ 1 ∧ Balanced bal l ∧ Balanced bal r

@[simp] theorem Balanced_nil (bal : α → Int) : Balanced bal nil = True := rfl
@[simp] theorem Balanced_node (bal : α → Int) (a : α) (l r : BinaryTree α) :
    Balanced bal (node a l r) = (bal a = (r.height : Int) - l.height ∧ -1 ≤ bal a ∧ bal a ≤ 1 ∧
      Balanced bal l ∧ Balanced bal r) := rfl

theorem Balanced_join (bal : α → Int) (d : Side) (a : α) (x y : BinaryTree α) :
    Balanced bal (join d a x y) ↔ bal a = d.sign * ((x.height : Int) - y.height) ∧
      -1 ≤ bal a ∧ bal a ≤ 1 ∧ Balanced bal x ∧ Balanced bal y := by
  cases d <;> simp
  grind

/-- A step whose balance is right for a hole of height `n`. -/
def Frame.Fits (bal : α → Int) (f : Frame α) (n : Nat) : Prop :=
  bal f.value = f.side.sign * ((n : Int) - f.sibling.height) ∧
  -1 ≤ bal f.value ∧ bal f.value ≤ 1 ∧ Balanced bal f.sibling

theorem Frame.balanced_plug (bal : α → Int) (f : Frame α) (t : BinaryTree α) :
    Balanced bal (f.plug t) ↔ f.Fits bal t.height ∧ Balanced bal t := by
  rw [Frame.plug, Balanced_join, Frame.Fits]
  tauto

theorem Frame.height_plug (f : Frame α) (t : BinaryTree α) :
    (f.plug t).height = max t.height f.sibling.height + 1 := height_join ..

/-- A context whose balances are right for a hole of height `n`. -/
def Fits (bal : α → Int) : List (Frame α) → Nat → Prop
  | [], _ => True
  | f :: fs, n => f.Fits bal n ∧ Fits bal fs (max n f.sibling.height + 1)

@[simp] theorem Fits_nil (bal : α → Int) (n : Nat) : Fits bal [] n = True := rfl
@[simp] theorem Fits_cons (bal : α → Int) (f : Frame α) (fs : List (Frame α)) (n : Nat) :
    Fits bal (f :: fs) n = (f.Fits bal n ∧ Fits bal fs (max n f.sibling.height + 1)) := rfl

theorem balanced_plug (bal : α → Int) (fs : List (Frame α)) (t : BinaryTree α) :
    Balanced bal (plug fs t) ↔ Fits bal fs t.height ∧ Balanced bal t := by
  induction fs generalizing t with
  | nil => simp
  | cons f fs ih =>
    rw [plug_cons, ih, Frame.balanced_plug, Frame.height_plug, Fits_cons]
    tauto

/-- The height of a context closed over a tree of height `n`. -/
def heightUp : List (Frame α) → Nat → Nat
  | [], n => n
  | f :: fs, n => heightUp fs (max n f.sibling.height + 1)

theorem heightUp_append (fs gs : List (Frame α)) (n : Nat) :
    heightUp (fs ++ gs) n = heightUp gs (heightUp fs n) := by
  induction fs generalizing n with
  | nil => rfl
  | cons f fs ih => rw [List.cons_append, heightUp, heightUp, ih]

theorem Fits_append (bal : α → Int) (fs gs : List (Frame α)) (n : Nat) :
    Fits bal (fs ++ gs) n ↔ Fits bal fs n ∧ Fits bal gs (heightUp fs n) := by
  induction fs generalizing n with
  | nil => simp [heightUp]
  | cons f fs ih =>
    rw [List.cons_append, Fits_cons, Fits_cons, ih, heightUp]
    tauto

theorem height_plug (fs : List (Frame α)) (t : BinaryTree α) :
    (plug fs t).height = heightUp fs t.height := by
  induction fs generalizing t with
  | nil => rfl
  | cons f fs ih => rw [plug_cons, ih, Frame.height_plug, heightUp]

/-- A balanced tree of height `h` has at least `2 ^ (h / 2) - 1` nodes. -/
theorem two_pow_half_height_le {bal : α → Int} {t : BinaryTree α} (ht : Balanced bal t) :
    2 ^ (t.height / 2) ≤ t.numNodes + 1 := by
  induction t with
  | nil => simp
  | node a l r ihl ihr =>
    obtain ⟨hb, hlo, hhi, hl, hr⟩ := ht
    have ihl := ihl hl
    have ihr := ihr hr
    have hmin : 2 ^ ((node a l r).height / 2) ≤ 2 ^ (l.height / 2 + 1) ∧
        2 ^ ((node a l r).height / 2) ≤ 2 ^ (r.height / 2 + 1) := by
      simp only [height]
      constructor <;> apply Nat.pow_le_pow_right (by decide) <;> omega
    have h1 : 2 ^ (l.height / 2 + 1) = 2 * 2 ^ (l.height / 2) := by rw [Nat.pow_succ]; omega
    have h2 : 2 ^ (r.height / 2 + 1) = 2 * 2 ^ (r.height / 2) := by rw [Nat.pow_succ]; omega
    simp only [numNodes]
    omega

/-- Every node and the size of its left subtree are related by `R`. -/
def LeftSizes (R : α → Nat → Prop) : BinaryTree α → Prop
  | nil => True
  | node a l r => R a l.numNodes ∧ LeftSizes R l ∧ LeftSizes R r

@[simp] theorem LeftSizes_nil (R : α → Nat → Prop) : LeftSizes R nil = True := rfl
@[simp] theorem LeftSizes_node (R : α → Nat → Prop) (a : α) (l r : BinaryTree α) :
    LeftSizes R (node a l r) = (R a l.numNodes ∧ LeftSizes R l ∧ LeftSizes R r) := rfl

theorem LeftSizes.imp {R R' : α → Nat → Prop} (h : ∀ a n, R a n → R' a n) {t : BinaryTree α}
    (ht : LeftSizes R t) : LeftSizes R' t := by
  induction t with
  | nil => trivial
  | node a l r ihl ihr => exact ⟨h _ _ ht.1, ihl ht.2.1, ihr ht.2.2⟩

theorem LeftSizes.and {R R' : α → Nat → Prop} {t : BinaryTree α} (ht : LeftSizes R t) (ht' : LeftSizes R' t) :
    LeftSizes (fun a n => R a n ∧ R' a n) t := by
  induction t with
  | nil => trivial
  | node a l r ihl ihr => exact ⟨⟨ht.1, ht'.1⟩, ihl ht.2.1 ht'.2.1, ihr ht.2.2 ht'.2.2⟩

/-- In a small tree every left subtree is small. -/
theorem leftSizes_lt {b : Nat} {t : BinaryTree α} (ht : t.numNodes < b) :
    LeftSizes (fun _ n => n + 1 < b) t := by
  induction t with
  | nil => trivial
  | node a l r ihl ihr =>
    simp only [numNodes] at ht
    exact ⟨by omega, ihl (by omega), ihr (by omega)⟩

/-- A step whose left sizes are right for a hole of `n` nodes. -/
def Frame.SizesFit (R : α → Nat → Prop) (f : Frame α) (n : Nat) : Prop :=
  (match f.side with
    | .left => R f.value n
    | .right => R f.value f.sibling.numNodes) ∧ LeftSizes R f.sibling

/-- A context whose left sizes are right for a hole of `n` nodes. -/
def SizesFit (R : α → Nat → Prop) : List (Frame α) → Nat → Prop
  | [], _ => True
  | f :: fs, n => f.SizesFit R n ∧ SizesFit R fs (f.sibling.numNodes + n + 1)

@[simp] theorem SizesFit_nil (R : α → Nat → Prop) (n : Nat) : SizesFit R [] n = True := rfl
@[simp] theorem SizesFit_cons (R : α → Nat → Prop) (f : Frame α) (fs : List (Frame α)) (n : Nat) :
    SizesFit R (f :: fs) n = (f.SizesFit R n ∧ SizesFit R fs (f.sibling.numNodes + n + 1)) := rfl

theorem SizesFit_append (R : α → Nat → Prop) (fs gs : List (Frame α)) (n : Nat) :
    SizesFit R (fs ++ gs) n ↔ SizesFit R fs n ∧ SizesFit R gs (outside fs + n) := by
  induction fs generalizing n with
  | nil => simp [outside]
  | cons f fs ih =>
    have e : outside fs + (f.sibling.numNodes + n + 1) = outside (f :: fs) + n := by
      simp only [outside]; omega
    rw [List.cons_append, SizesFit_cons, SizesFit_cons, ih, e]
    tauto

theorem Frame.leftSizes_plug (R : α → Nat → Prop) (f : Frame α) (t : BinaryTree α) :
    LeftSizes R (f.plug t) ↔ f.SizesFit R t.numNodes ∧ LeftSizes R t := by
  cases f with
  | mk side a s => cases side <;> simp [Frame.plug, Frame.SizesFit] <;> tauto

theorem Frame.numNodes_plug (f : Frame α) (t : BinaryTree α) :
    (f.plug t).numNodes = f.sibling.numNodes + t.numNodes + 1 := by
  rw [Frame.plug, numNodes_join, Nat.add_comm t.numNodes]

theorem leftSizes_plug (R : α → Nat → Prop) (fs : List (Frame α)) (t : BinaryTree α) :
    LeftSizes R (plug fs t) ↔ SizesFit R fs t.numNodes ∧ LeftSizes R t := by
  induction fs generalizing t with
  | nil => simp
  | cons f fs ih =>
    rw [plug_cons, ih, Frame.leftSizes_plug, Frame.numNodes_plug, SizesFit_cons]
    tauto

/-- With left subtrees of fewer than `b` nodes, the size is at most `b` for each
level of the right spine. -/
theorem numNodes_le_height_mul {R : α → Nat → Prop} {b : Nat} (hR : ∀ a n, R a n → n < b)
    {t : BinaryTree α} (ht : LeftSizes R t) : t.numNodes ≤ t.height * b := by
  induction t with
  | nil => simp
  | node a l r _ ihr =>
    obtain ⟨ha, _, hr⟩ := ht
    have hl := hR a _ ha
    calc (node a l r).numNodes ≤ b + r.numNodes := by simp only [numNodes]; omega
      _ ≤ b + r.height * b := Nat.add_le_add_left (ihr hr) b
      _ = (r.height + 1) * b := by rw [Nat.succ_mul, Nat.add_comm]
      _ ≤ (node a l r).height * b := by
        apply Nat.mul_le_mul_right
        simp only [height]
        omega

end IcecastCommon.Library
