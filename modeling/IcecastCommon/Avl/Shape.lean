import IcecastCommon.Avl.Code
import IcecastCommon.Avl.Tree

/- When a heap holds a tree. `Rep` says that every node of a tree is stored at its
   address with its children and its parent linked as the tree has them, `RepCtx`
   the same of the path from a hole up to the header, and `Focus` that the heap
   holds the tree around a subtree with all addresses distinct. Moving the focus
   along a link changes nothing (`focus_plug`); `Focus.replace` is the frame rule:
   a subtree may be rewritten as long as the one pointer to it is. -/
namespace IcecastCommon.Avl
open Library BinaryTree

variable {K : Type}

/-- The node stored for a cell, with the given links. -/
def Cell.record (c : Cell K) (l r par : Ptr) : AvlNode K :=
  { key := c.key, left := l, right := r, parent := par, rankAndBalance := c.word }

/-- The same with `x` the child on side `d` and `y` the other. -/
def Cell.sideRecord (c : Cell K) (d : Side) (x y par : Ptr) : AvlNode K :=
  match d with
  | .left => c.record x y par
  | .right => c.record y x par

def AvlNode.child (n : AvlNode K) : Side → Ptr
  | .left => n.left
  | .right => n.right

def AvlNode.setChild (n : AvlNode K) (d : Side) (q : Ptr) : AvlNode K :=
  match d with
  | .left => { n with left := q }
  | .right => { n with right := q }

/-- The pointer to a tree: to its root, or NULL. -/
def ptr : BinaryTree (Cell K) → Ptr
  | nil => none
  | node c _ _ => some c.addr

@[simp] theorem ptr_nil : ptr (nil : BinaryTree (Cell K)) = none := rfl
@[simp] theorem ptr_node (c : Cell K) (l r : BinaryTree (Cell K)) : ptr (node c l r) = some c.addr := rfl
@[simp] theorem ptr_join (d : Side) (c : Cell K) (x y : BinaryTree (Cell K)) :
    ptr (join d c x y) = some c.addr := by
  cases d <;> rfl

@[simp] theorem addrs_nil : addrs (nil : BinaryTree (Cell K)) = [] := rfl
@[simp] theorem addrs_node (c : Cell K) (l r : BinaryTree (Cell K)) :
    addrs (node c l r) = addrs l ++ c.addr :: addrs r := by
  simp [addrs]
theorem mem_addrs_join {d : Side} {c : Cell K} {x y : BinaryTree (Cell K)} {a : Addr} :
    a ∈ addrs (join d c x y) ↔ a = c.addr ∨ a ∈ addrs x ∨ a ∈ addrs y := by
  cases d <;> simp <;> tauto

/-- `h` stores the tree, its root linked to `par` as its parent. -/
def Rep (h : Heap K) (par : Ptr) : BinaryTree (Cell K) → Prop
  | nil => True
  | node c l r => h.cell c.addr = some (c.record (ptr l) (ptr r) par) ∧
      Rep h (some c.addr) l ∧ Rep h (some c.addr) r

@[simp] theorem Rep_nil (h : Heap K) (par : Ptr) : Rep h par nil = True := rfl
@[simp] theorem Rep_node (h : Heap K) (par : Ptr) (c : Cell K) (l r : BinaryTree (Cell K)) :
    Rep h par (node c l r) = (h.cell c.addr = some (c.record (ptr l) (ptr r) par) ∧
      Rep h (some c.addr) l ∧ Rep h (some c.addr) r) := rfl

theorem Rep_join (h : Heap K) (par : Ptr) (d : Side) (c : Cell K) (x y : BinaryTree (Cell K)) :
    Rep h par (join d c x y) ↔ h.cell c.addr = some (c.sideRecord d (ptr x) (ptr y) par) ∧
      Rep h (some c.addr) x ∧ Rep h (some c.addr) y := by
  cases d <;> simp [Cell.sideRecord]
  tauto

/-- A tree's representation depends on its own cells only. -/
theorem Rep.congr {h h' : Heap K} {par : Ptr} {t : BinaryTree (Cell K)} (ht : Rep h par t)
    (heq : ∀ a ∈ addrs t, h'.cell a = h.cell a) : Rep h' par t := by
  induction t generalizing par with
  | nil => trivial
  | node c l r ihl ihr =>
    obtain ⟨hc, hl, hr⟩ := ht
    refine ⟨?_, ihl hl ?_, ihr hr ?_⟩
    · rw [heq c.addr (by simp), hc]
    · intro a ha; exact heq a (by simp [ha])
    · intro a ha; exact heq a (by simp [ha])

/-- `if (c) c->parent = p` changes the parent of the whole tree at `c`. -/
theorem setParent_spec {h : Heap K} {par p : Ptr} {t : BinaryTree (Cell K)} (ht : Rep h par t)
    (hnd : (addrs t).Nodup) :
    ∃ h', setParent h (ptr t) p = some h' ∧ Rep h' p t ∧ h'.next = h.next ∧
      ∀ a, a ∉ addrs t → h'.cell a = h.cell a := by
  cases t with
  | nil => exact ⟨h, rfl, trivial, rfl, fun _ _ => rfl⟩
  | node c l r =>
    obtain ⟨hc, hl, hr⟩ := ht
    simp only [addrs_node, List.nodup_append, List.nodup_cons, List.mem_cons] at hnd
    refine ⟨h.put c.addr (c.record (ptr l) (ptr r) p), ?_, ⟨?_, ?_, ?_⟩, rfl, ?_⟩
    · show h.modify (some c.addr) _ = _
      rw [Heap.modify_eq hc]
      rfl
    · exact Heap.put_cell_self ..
    · refine hl.congr fun a ha => Heap.put_cell_of_ne ?_
      rintro rfl
      exact hnd.2.2 _ ha _ (Or.inl rfl) rfl
    · refine hr.congr fun a ha => Heap.put_cell_of_ne ?_
      rintro rfl
      exact hnd.2.1.1 ha
    · intro a ha
      refine Heap.put_cell_of_ne ?_
      rintro rfl
      exact ha (by simp)

/-! The path to the header. -/

/-- The address the hole's parent pointer goes to. -/
def parentOf (hdr : Addr) : List (Frame (Cell K)) → Addr
  | [] => hdr
  | f :: _ => f.value.addr

/-- The side of its parent a hole is on; the tree itself hangs right of the header. -/
def holeSide : List (Frame (Cell K)) → Side
  | [] => .right
  | f :: _ => f.side

/-- The path from a hole up to the header `hdr`, whose right link is the tree and
whose key and other links are NULL. -/
def RepCtx (h : Heap K) (hdr : Addr) : List (Frame (Cell K)) → Ptr → Prop
  | [], hole => ∃ w, h.cell hdr =
      some { key := none, left := none, right := hole, parent := none, rankAndBalance := w }
  | f :: fs, hole =>
    h.cell f.value.addr =
      some (f.value.sideRecord f.side hole (ptr f.sibling) (some (parentOf hdr fs))) ∧
    Rep h (some f.value.addr) f.sibling ∧ RepCtx h hdr fs (some f.value.addr)

/-- The addresses of the path and of what is beside it. -/
def aroundAddrs (fs : List (Frame (Cell K))) : List Addr := (around fs).map Cell.addr

theorem RepCtx.congr {h h' : Heap K} {hdr : Addr} {fs : List (Frame (Cell K))} {hole : Ptr}
    (hc : RepCtx h hdr fs hole) (heq : ∀ a ∈ hdr :: aroundAddrs fs, h'.cell a = h.cell a) :
    RepCtx h' hdr fs hole := by
  induction fs generalizing hole with
  | nil =>
    obtain ⟨w, hw⟩ := hc
    exact ⟨w, by rw [heq hdr (by simp), hw]⟩
  | cons f fs ih =>
    obtain ⟨hf, hs, hrest⟩ := hc
    refine ⟨?_, hs.congr ?_, ih hrest ?_⟩
    · rw [heq _ (by simp [aroundAddrs, around]), hf]
    · intro a ha
      refine heq a ?_
      simp only [aroundAddrs, around, List.map_cons, List.map_append, List.mem_cons, List.mem_append]
      exact Or.inr (Or.inr (Or.inl ha))
    · intro a ha
      refine heq a ?_
      simp only [aroundAddrs, around, List.map_cons, List.map_append, List.mem_cons,
        List.mem_append] at ha ⊢
      rcases ha with ha | ha
      · exact Or.inl ha
      · exact Or.inr (Or.inr (Or.inr ha))

/-- The heap holds the tree `plug fs t` below the header `hdr`, at distinct
addresses that have been handed out. -/
structure Focus (h : Heap K) (hdr : Addr) (fs : List (Frame (Cell K))) (t : BinaryTree (Cell K)) :
    Prop where
  ctx : RepCtx h hdr fs (ptr t)
  tree : Rep h (some (parentOf hdr fs)) t
  nodup : (hdr :: addrs (plug fs t)).Nodup
  bound : ∀ a ∈ hdr :: addrs (plug fs t), a < h.next

theorem addrs_plug_perm (fs : List (Frame (Cell K))) (t : BinaryTree (Cell K)) :
    (addrs (plug fs t)).Perm (aroundAddrs fs ++ addrs t) := by
  have := (inorder_plug_perm fs t).map Cell.addr
  rwa [List.map_append] at this

/-- The addresses under the header, with another subtree of the same addresses. -/
theorem hdr_addrs_perm (hdr : Addr) (fs : List (Frame (Cell K))) {t t' : BinaryTree (Cell K)}
    (hperm : (addrs t').Perm (addrs t)) : (hdr :: addrs (plug fs t')).Perm (hdr :: addrs (plug fs t)) := by
  apply List.Perm.cons
  calc List.Perm (addrs (plug fs t')) (aroundAddrs fs ++ addrs t') := addrs_plug_perm fs t'
    List.Perm _ (aroundAddrs fs ++ addrs t) := hperm.append_left _
    List.Perm _ (addrs (plug fs t)) := (addrs_plug_perm fs t).symm

/-- The focus may move along any link. -/
theorem focus_plug {h : Heap K} {hdr : Addr} {fs : List (Frame (Cell K))} {f : Frame (Cell K)}
    {t : BinaryTree (Cell K)} : Focus h hdr fs (f.plug t) ↔ Focus h hdr (f :: fs) t := by
  constructor
  · intro F
    have ht := F.tree
    rw [Frame.plug, Rep_join] at ht
    refine ⟨⟨ht.1, ht.2.2, ?_⟩, ht.2.1, F.nodup, F.bound⟩
    have := F.ctx
    rwa [Frame.plug, ptr_join] at this
  · intro F
    obtain ⟨hf, hs, hrest⟩ := F.ctx
    refine ⟨?_, ?_, F.nodup, F.bound⟩
    · rw [Frame.plug, ptr_join]
      exact hrest
    · rw [Frame.plug, Rep_join]
      exact ⟨hf, F.tree, hs⟩

theorem focus_plug_all {h : Heap K} {hdr : Addr} {fs : List (Frame (Cell K))}
    (gs : List (Frame (Cell K))) {t : BinaryTree (Cell K)} :
    Focus h hdr fs (plug gs t) ↔ Focus h hdr (gs ++ fs) t := by
  induction gs generalizing t with
  | nil => exact Iff.rfl
  | cons g gs ih => rw [plug_cons, ih, focus_plug]; rfl

namespace Focus
variable {h h' : Heap K} {hdr : Addr} {fs : List (Frame (Cell K))} {t t' : BinaryTree (Cell K)}

/-- The cell at the focus. -/
theorem cell {d : Side} {c : Cell K} {x y : BinaryTree (Cell K)} (F : Focus h hdr fs (join d c x y)) :
    h.cell c.addr = some (c.sideRecord d (ptr x) (ptr y) (some (parentOf hdr fs))) :=
  ((Rep_join ..).mp F.tree).1

theorem nodup_split (F : Focus h hdr fs t) :
    hdr ∉ addrs t ∧ hdr ∉ aroundAddrs fs ∧ (aroundAddrs fs).Nodup ∧ (addrs t).Nodup ∧
      ∀ a ∈ aroundAddrs fs, a ∉ addrs t := by
  have hp := F.nodup
  rw [(List.Perm.cons hdr (addrs_plug_perm fs t)).nodup_iff] at hp
  simp only [List.nodup_cons, List.mem_append, List.nodup_append] at hp
  refine ⟨fun hm => hp.1 (Or.inr hm), fun hm => hp.1 (Or.inl hm), hp.2.1, hp.2.2.1, ?_⟩
  intro a ha hb
  exact hp.2.2.2 a ha a hb rfl

theorem nodup_tree (F : Focus h hdr fs t) : (addrs t).Nodup := F.nodup_split.2.2.2.1

theorem parentOf_mem (hdr : Addr) (fs : List (Frame (Cell K))) : parentOf hdr fs ∈ hdr :: aroundAddrs fs := by
  cases fs <;> simp [parentOf, aroundAddrs, around]

/-- The path's addresses are not the subtree's. -/
theorem around_not_mem (F : Focus h hdr fs t) {a : Addr} (ha : a ∈ hdr :: aroundAddrs fs) :
    a ∉ addrs t := by
  obtain ⟨h1, _, _, _, h5⟩ := F.nodup_split
  rcases List.mem_cons.mp ha with rfl | ha
  · exact h1
  · exact h5 a ha

theorem parentOf_not_mem (F : Focus h hdr fs t) : parentOf hdr fs ∉ addrs t :=
  F.around_not_mem (parentOf_mem hdr fs)

/-- The frame rule: a subtree may be replaced when the pointer to it is redirected
and everything beside the path stays. -/
theorem replace (F : Focus h hdr fs t)
    (hpar : h'.cell (parentOf hdr fs) =
      (h.cell (parentOf hdr fs)).map fun n => n.setChild (holeSide fs) (ptr t'))
    (hrest : ∀ a ∈ hdr :: aroundAddrs fs, a ≠ parentOf hdr fs → h'.cell a = h.cell a)
    (ht : Rep h' (some (parentOf hdr fs)) t')
    (hnd : (hdr :: addrs (plug fs t')).Nodup)
    (hb : ∀ a ∈ hdr :: addrs (plug fs t'), a < h'.next) : Focus h' hdr fs t' := by
  refine ⟨?_, ht, hnd, hb⟩
  obtain ⟨_, hhdr, hnda, _, _⟩ := F.nodup_split
  cases fs with
  | nil =>
    obtain ⟨w, hw⟩ := F.ctx
    refine ⟨w, ?_⟩
    rw [show parentOf hdr ([] : List (Frame (Cell K))) = hdr from rfl] at hpar
    rw [hpar, hw]
    rfl
  | cons f fs =>
    obtain ⟨hf, hs, hctx⟩ := F.ctx
    rw [show parentOf hdr (f :: fs) = f.value.addr from rfl] at hpar hrest
    simp only [aroundAddrs, around, List.map_cons, List.map_append, List.nodup_cons, List.mem_append,
      List.mem_cons, List.nodup_append] at hnda hhdr hrest
    refine ⟨?_, hs.congr ?_, hctx.congr ?_⟩
    · rw [hpar, hf]
      rcases f with ⟨_ | _, c, s⟩ <;> rfl
    · intro a ha
      refine hrest a (Or.inr (Or.inr (Or.inl ha))) ?_
      rintro rfl
      exact hnda.1 (Or.inl ha)
    · intro a ha
      rcases List.mem_cons.mp ha with rfl | ha
      · exact hrest a (Or.inl rfl) fun he => hhdr (Or.inl he)
      · refine hrest a (Or.inr (Or.inr (Or.inr ha))) ?_
        rintro rfl
        exact hnda.1 (Or.inr ha)

/-- The frame rule for the same addresses under the same pointer. -/
theorem update (F : Focus h hdr fs t) (hrest : ∀ a, a ∉ addrs t → h'.cell a = h.cell a)
    (ht : Rep h' (some (parentOf hdr fs)) t') (hptr : ptr t' = ptr t)
    (hperm : (addrs t').Perm (addrs t)) (hnext : h'.next = h.next) : Focus h' hdr fs t' := by
  have hp := hdr_addrs_perm hdr fs hperm
  refine ⟨?_, ht, hp.nodup_iff.mpr F.nodup, ?_⟩
  · rw [hptr]
    exact F.ctx.congr fun a ha => hrest a (F.around_not_mem ha)
  · intro a ha
    rw [hnext]
    exact F.bound a (hp.mem_iff.mp ha)

/-- The node above the focus links to it on one side only. -/
theorem parentCell (F : Focus h hdr fs t) (ht : t ≠ nil) :
    ∃ n, h.cell (parentOf hdr fs) = some n ∧ n.child (holeSide fs) = ptr t ∧
      n.child (holeSide fs).flip ≠ ptr t := by
  obtain ⟨c, l, r, rfl⟩ : ∃ c l r, t = node c l r := by
    obtain ⟨c, l, r, rfl⟩ := exists_join .left ht
    exact ⟨c, l, r, rfl⟩
  cases fs with
  | nil =>
    obtain ⟨w, hw⟩ := F.ctx
    exact ⟨_, hw, rfl, by simp [holeSide, AvlNode.child]⟩
  | cons f fs =>
    obtain ⟨hf, hs, _⟩ := F.ctx
    -- the sibling's root is not a node of the subtree
    have hsib : ptr f.sibling ≠ ptr (node c l r) := by
      intro he
      cases hsib : f.sibling with
      | nil => rw [hsib] at he; cases he
      | node c' l' r' =>
        rw [hsib, ptr_node, ptr_node, Option.some.injEq] at he
        refine F.around_not_mem (a := c'.addr) ?_ (by rw [he]; simp)
        simp [aroundAddrs, around, hsib]
    refine ⟨_, hf, ?_, ?_⟩ <;> rcases f with ⟨_ | _, v, s⟩ <;>
      simp_all [holeSide, AvlNode.child, Cell.sideRecord, Cell.record]

/-- The frame rule with the new subtree given up to a permutation of addresses. -/
theorem swing {n : AvlNode K} (F : Focus h hdr fs t) (hn : h.cell (parentOf hdr fs) = some n)
    (hpar : h'.cell (parentOf hdr fs) = some (n.setChild (holeSide fs) (ptr t')))
    (hrest : ∀ a, a ∉ addrs t → a ≠ parentOf hdr fs → h'.cell a = h.cell a)
    (ht : Rep h' (some (parentOf hdr fs)) t') (hperm : (addrs t').Perm (addrs t))
    (hnext : h'.next = h.next) : Focus h' hdr fs t' := by
  have hp := hdr_addrs_perm hdr fs hperm
  refine F.replace ?_ ?_ ht (hp.nodup_iff.mpr F.nodup) ?_
  · rw [hpar, hn]
    rfl
  · intro a ha hne
    exact hrest a (F.around_not_mem ha) hne
  · intro a ha
    rw [hnext]
    exact F.bound a (hp.mem_iff.mp ha)

/-- Rewriting the key or the word of the node at the focus. -/
theorem put {c b : Cell K} {l r : BinaryTree (Cell K)} (F : Focus h hdr fs (node c l r))
    (ha : b.addr = c.addr) :
    Focus (h.put c.addr (b.record (ptr l) (ptr r) (some (parentOf hdr fs)))) hdr fs (node b l r) := by
  have hnd := F.nodup_tree
  obtain ⟨_, hl, hr⟩ := F.tree
  simp only [addrs_node, List.nodup_append, List.nodup_cons, List.mem_cons] at hnd
  refine F.update ?_ ⟨?_, ?_, ?_⟩ ?_ ?_ rfl
  · intro a hna
    refine Heap.put_cell_of_ne ?_
    rintro rfl
    exact hna (by simp)
  · rw [ha]
    exact Heap.put_cell_self ..
  · rw [ha]
    refine hl.congr fun a hm => Heap.put_cell_of_ne ?_
    rintro rfl
    exact hnd.2.2 _ hm _ (Or.inl rfl) rfl
  · rw [ha]
    refine hr.congr fun a hm => Heap.put_cell_of_ne ?_
    rintro rfl
    exact hnd.2.1.1 hm
  · simp [ha]
  · simp [ha]

theorem putSide {d : Side} {c b : Cell K} {x y : BinaryTree (Cell K)} (F : Focus h hdr fs (join d c x y))
    (ha : b.addr = c.addr) :
    Focus (h.put c.addr (b.sideRecord d (ptr x) (ptr y) (some (parentOf hdr fs)))) hdr fs
      (join d b x y) := by
  cases d with
  | left => exact F.put ha
  | right => exact F.put ha

/-- The path and the subtree have at most as many nodes as addresses were handed
out, the header included. -/
theorem size_lt (F : Focus h hdr fs t) : (plug fs t).numNodes < h.next := by
  have hlen : (hdr :: addrs (plug fs t)).length ≤ (List.range h.next).length :=
    (F.nodup.subperm fun a ha => List.mem_range.mpr (F.bound a ha)).length_le
  simpa [addrs, inorder_length, Nat.succ_le_iff] using hlen

end Focus

end IcecastCommon.Avl
