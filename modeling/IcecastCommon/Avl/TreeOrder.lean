import IcecastCommon.Avl.TreeInsert
import IcecastCommon.Avl.TreeDelete
import IcecastCommon.Library.Order

/- What the tree operations do to the sequence of keys when the comparison is that
   of a total preorder and the sequence is ordered: insertion is
   `List.orderedInsert`, deletion takes out one key that compares equal when there
   is one, and both searches find such a key when there is one. With right ranks
   the walk by rank finds the key at a position. -/
namespace IcecastCommon.Avl
open Library BinaryTree

variable {K : Type}

theorem keys_node (c : Cell K) (l r : BinaryTree (Cell K)) :
    keys (node c l r) = keys l ++ c.key :: keys r := by
  simp [keys]

theorem keys_length (t : BinaryTree (Cell K)) : (keys t).length = t.numNodes := by
  rw [keys, List.length_map, inorder_length]

/-- An ordered sequence around the root of its tree. -/
theorem ordered_node {cmp : Option K → Option K → Int} {c : Cell K} {l r : BinaryTree (Cell K)}
    (h : Ordered cmp (keys (node c l r))) :
    Ordered cmp (keys l) ∧ Ordered cmp (keys r) ∧ (∀ e ∈ keys l, NotAfter cmp e c.key) ∧
      ∀ e ∈ keys r, NotAfter cmp c.key e := by
  rw [keys_node, Ordered, List.pairwise_append, List.pairwise_cons] at h
  obtain ⟨hl, ⟨hc, hr⟩, hcross⟩ := h
  exact ⟨hl, hr, fun e he => hcross e he c.key (by simp), hc⟩

/-! Insertion. -/

/-- The sequence of the new tree: the new key between what the path leaves on its
two sides. -/
theorem insertTree_keys (cmp : Option K → Option K → Int) (new : Cell K) (t : BinaryTree (Cell K)) :
    keys (insertTree cmp new t).1 = (before (insertPath cmp new.key [] t)).map Cell.key ++
      new.key :: (after (insertPath cmp new.key [] t)).map Cell.key := by
  rw [keys, insertTree_inorder wordFree_key, inorder_plug]
  simp

theorem insertPath_keys (cmp : Option K → Option K → Int) (k : Option K) (t : BinaryTree (Cell K)) :
    keys t = (before (insertPath cmp k [] t)).map Cell.key ++
      (after (insertPath cmp k [] t)).map Cell.key := by
  have h := insertPath_inorder wordFree_key cmp k [] t
  rw [inorder_plug] at h
  simpa [keys] using h.symm

theorem insertTree_numNodes (cmp : Option K → Option K → Int) (new : Cell K) (t : BinaryTree (Cell K)) :
    (insertTree cmp new t).1.numNodes = t.numNodes + 1 := by
  have h := congrArg List.length (insertTree_keys cmp new t)
  have h' := congrArg List.length (insertPath_keys cmp new.key t)
  rw [keys_length] at h h'
  simp only [List.length_append, List.length_cons] at h h'
  omega

/-- The subtree that is repaired is a part of the grown tree. -/
theorem critical_numNodes {cmp : Option K → Option K → Int} {new : Cell K} {t : BinaryTree (Cell K)}
    {below above : List (Frame (Cell K))} {s : Frame (Cell K)}
    (h : critical (insertPath cmp new.key [] t) = some (below, s, above)) :
    (s.plug (plug (below.map settle) (node new nil nil))).numNodes ≤ t.numNodes + 1 := by
  have hfix : (insertFix s.side s.value (plug (below.map settle) (node new nil nil)) s.sibling).1.numNodes =
      (s.plug (plug (below.map settle) (node new nil nil))).numNodes :=
    numNodes_eq_of_inorder (insertFix_inorder wordFree_addr ..)
  rw [← insertTree_numNodes cmp new t, insertTree_eq h, numNodes_plug, ← hfix]
  exact Nat.le_add_left _ _

/-- The path separates the keys after `k` from those not before it. -/
theorem insertPath_separates {cmp : Option K → Option K → Int} (H : TotalPreorder cmp) (k : Option K)
    (fs : List (Frame (Cell K))) {t : BinaryTree (Cell K)} (ht : Ordered cmp (keys t))
    (hb : ∀ c ∈ before fs, 0 < cmp k c.key) (ha : ∀ c ∈ after fs, cmp k c.key ≤ 0) :
    (∀ c ∈ before (insertPath cmp k fs t), 0 < cmp k c.key) ∧
      ∀ c ∈ after (insertPath cmp k fs t), cmp k c.key ≤ 0 := by
  induction t generalizing fs with
  | nil => exact ⟨hb, ha⟩
  | node c l r ihl ihr =>
    obtain ⟨hl, hr, hlc, hcr⟩ := ordered_node ht
    rw [insertPath]
    split
    · rename_i hlt
      refine ihl _ hl ?_ ?_
      · simpa [before, Frame.before] using hb
      · intro e he
        simp only [after, Frame.after, List.cons_append, List.mem_cons, List.mem_append] at he
        rcases he with rfl | he | he
        · exact Int.lt_add_one_iff.mp hlt
        · exact H.trans k c.key e.key (Int.lt_add_one_iff.mp hlt) (hcr _ (List.mem_map_of_mem he))
        · exact ha e he
    · rename_i hlt
      refine ihr _ hr ?_ ?_
      · intro e he
        simp only [before, Frame.before, List.mem_append, List.mem_singleton] at he
        rcases he with he | he | rfl
        · exact hb e he
        · exact H.gt_of_gt (b := c.key) (by omega) (hlc _ (List.mem_map_of_mem he))
        · omega
      · simpa [after, Frame.after] using ha

/-- Insertion puts the key before the first one it is not after. -/
theorem insertTree_ordered {cmp : Option K → Option K → Int} (H : TotalPreorder cmp) (new : Cell K)
    {t : BinaryTree (Cell K)} (ht : Ordered cmp (keys t)) :
    keys (insertTree cmp new t).1 = (keys t).orderedInsert (NotAfter cmp) new.key := by
  obtain ⟨hb, ha⟩ := insertPath_separates H new.key [] ht (by simp [before])
    (by simp [after])
  rw [insertTree_keys, insertPath_keys cmp new.key t, orderedInsert_append]
  · simpa using hb
  · simpa using ha

/-! Deletion. -/

/-- A deletion takes one key out, which compares equal. -/
theorem deleteTree_keys {cmp : Option K → Option K → Int} {k : Option K} {t : BinaryTree (Cell K)}
    {D : Deleted K} (h : deleteTree cmp k t = some D) :
    ∃ xs ys, keys t = xs ++ D.key :: ys ∧ keys D.tree = xs ++ ys ∧ cmp k D.key = 0 := by
  have hkeys := deletePath_inorder wordFree_key cmp k [] t
  rw [deleteTree] at h
  generalize hp : deletePath cmp k [] t = path at h hkeys
  obtain ⟨fs, _ | ⟨c, l, r⟩⟩ := path
  · cases h
  obtain rfl := Option.some.inj h
  refine ⟨(before fs).map Cell.key ++ keys l, keys r ++ (after fs).map Cell.key, ?_, ?_,
    deletePath_found hp⟩
  · rw [inorder_plug] at hkeys
    simpa [keys] using hkeys.symm
  · show (inorder (climb _ _ true).1).map Cell.key = _
    rw [climb_inorder wordFree_key]
    exact deleteNode_keys fs c l r

theorem deleteTree_balanced {cmp : Option K → Option K → Int} {k : Option K} {t : BinaryTree (Cell K)}
    {D : Deleted K} (h : deleteTree cmp k t = some D) (ht : AvlBalanced t) :
    AvlBalanced D.tree ∧ D.tree.height + (if D.shorter then 1 else 0) = t.height := by
  have hbal := (deletePath_balanced cmp k [] t).mpr ht
  have hheight := deletePath_height cmp k [] t
  rw [deleteTree] at h
  generalize hp : deletePath cmp k [] t = path at h hbal hheight
  obtain ⟨fs, _ | ⟨c, l, r⟩⟩ := path
  · cases h
  obtain rfl := Option.some.inj h
  obtain ⟨hfits, hchild, hh⟩ := deleteNode_balanced hbal
  obtain ⟨hres, hheight'⟩ := climb_balanced true hfits hchild
  refine ⟨hres, hheight'.trans (hh.trans ?_)⟩
  rw [height_plug]
  exact hheight

theorem deleteTree_ranked {cmp : Option K → Option K → Int} {k : Option K} {t : BinaryTree (Cell K)}
    {D : Deleted K} (h : deleteTree cmp k t = some D) (ht : AvlRanked t) : AvlRanked D.tree := by
  have hpath := deletePath_ranked cmp k [] t trivial ht
  rw [deleteTree] at h
  generalize hp : deletePath cmp k [] t = path at h hpath
  obtain ⟨fs, _ | ⟨c, l, r⟩⟩ := path
  · cases h
  obtain rfl := Option.some.inj h
  obtain ⟨hfs, hnode⟩ := hpath (by simp)
  exact climb_ranked (deleteNode_ranked hfs hnode)

/-- What a deletion that finds nothing leaves. -/
def missTree (cmp : Option K → Option K → Int) (k : Option K) (t : BinaryTree (Cell K)) :
    BinaryTree (Cell K) := undo (deletePath cmp k [] t).1

theorem deleteTree_none {cmp : Option K → Option K → Int} {k : Option K} {t : BinaryTree (Cell K)} :
    deleteTree cmp k t = none ↔ (deletePath cmp k [] t).2 = nil := by
  rw [deleteTree]
  rcases deletePath cmp k [] t with ⟨fs, _ | ⟨c, l, r⟩⟩ <;> simp

theorem missTree_keys {cmp : Option K → Option K → Int} {k : Option K} {t : BinaryTree (Cell K)}
    (h : deleteTree cmp k t = none) : keys (missTree cmp k t) = keys t := by
  have hkeys := deletePath_inorder wordFree_key cmp k [] t
  rw [deleteTree_none.mp h] at hkeys
  rw [keys, missTree, undo_inorder wordFree_key]
  exact hkeys

theorem missTree_balanced {cmp : Option K → Option K → Int} {k : Option K} {t : BinaryTree (Cell K)}
    (h : deleteTree cmp k t = none) (ht : AvlBalanced t) : AvlBalanced (missTree cmp k t) := by
  have hbal := (deletePath_balanced cmp k [] t).mpr ht
  rw [deleteTree_none.mp h] at hbal
  exact (undo_balanced _).mpr hbal

/-- A search that ends at nothing was for a key that nothing compares equal to. -/
theorem deletePath_complete {cmp : Option K → Option K → Int} (H : TotalPreorder cmp) {k : Option K}
    {fs : List (Frame (Cell K))} {t : BinaryTree (Cell K)} (ht : Ordered cmp (keys t))
    (h : (deletePath cmp k fs t).2 = nil) : ∀ e ∈ keys t, cmp k e ≠ 0 := by
  induction t generalizing fs with
  | nil => simp [keys]
  | node c l r ihl ihr =>
    obtain ⟨hl, hr, hlc, hcr⟩ := ordered_node ht
    rw [deletePath] at h
    intro e he
    rw [keys_node, List.mem_append, List.mem_cons] at he
    split at h
    · rename_i hlt
      rcases he with he | rfl | he
      · exact ihl hl h e he
      · exact hlt.ne
      · exact (H.lt_of_lt hlt (hcr e he)).ne
    split at h
    · rename_i hgt
      rcases he with he | rfl | he
      · exact (H.gt_of_gt hgt (hlc e he)).ne'
      · exact hgt.ne'
      · exact ihr hr h e he
    · cases h

/-- A key is deleted when one compares equal. -/
theorem deleteTree_isSome {cmp : Option K → Option K → Int} (H : TotalPreorder cmp) {k : Option K}
    {t : BinaryTree (Cell K)} (ht : Ordered cmp (keys t)) :
    (∃ e ∈ keys t, cmp k e = 0) ↔ ∃ D, deleteTree cmp k t = some D := by
  constructor
  · rintro ⟨e, he, hk⟩
    refine Option.ne_none_iff_exists'.mp fun hnone => ?_
    exact deletePath_complete H ht (deleteTree_none.mp hnone) e he hk
  · rintro ⟨D, hD⟩
    obtain ⟨xs, ys, hkeys, _, hk⟩ := deleteTree_keys hD
    exact ⟨D.key, by simp [hkeys], hk⟩

/-! Lookups. -/

/-- The search of `avl_get_by_key`. -/
def findKey (cmp : Option K → Option K → Int) (k : Option K) : BinaryTree (Cell K) → Option (Option K)
  | nil => none
  | node c l r =>
    if cmp k c.key < 0 then findKey cmp k l
    else if 0 < cmp k c.key then findKey cmp k r
    else some c.key

theorem findKey_some {cmp : Option K → Option K → Int} {k e : Option K} {t : BinaryTree (Cell K)}
    (h : findKey cmp k t = some e) : e ∈ keys t ∧ cmp k e = 0 := by
  induction t with
  | nil => cases h
  | node c l r ihl ihr =>
    rw [findKey] at h
    rw [keys_node, List.mem_append, List.mem_cons]
    split at h
    · obtain ⟨he, hk⟩ := ihl h
      exact ⟨Or.inl he, hk⟩
    split at h
    · obtain ⟨he, hk⟩ := ihr h
      exact ⟨Or.inr (Or.inr he), hk⟩
    · obtain rfl := Option.some.inj h
      exact ⟨Or.inr (Or.inl rfl), by omega⟩

theorem findKey_none {cmp : Option K → Option K → Int} (H : TotalPreorder cmp) {k : Option K}
    {t : BinaryTree (Cell K)} (ht : Ordered cmp (keys t)) (h : findKey cmp k t = none) :
    ∀ e ∈ keys t, cmp k e ≠ 0 := by
  induction t with
  | nil => simp [keys]
  | node c l r ihl ihr =>
    obtain ⟨hl, hr, hlc, hcr⟩ := ordered_node ht
    rw [findKey] at h
    intro e he
    rw [keys_node, List.mem_append, List.mem_cons] at he
    split at h
    · rename_i hlt
      rcases he with he | rfl | he
      · exact ihl hl h e he
      · exact hlt.ne
      · exact (H.lt_of_lt hlt (hcr e he)).ne
    split at h
    · rename_i hgt
      rcases he with he | rfl | he
      · exact (H.gt_of_gt hgt (hlc e he)).ne'
      · exact hgt.ne'
      · exact ihr hr h e he
    · cases h

/-- The walk of `avl_get_by_index`. -/
def atRank : BinaryTree (Cell K) → BitVec 64 → Option (Option K)
  | nil, _ => none
  | node c l r, m =>
    let rank := (avlGetRank c.word).setWidth 64
    if m < rank then atRank l m
    else if rank < m then atRank r (m - rank)
    else some c.key

/-- The rank is one more than the size of the left subtree, without wrapping. -/
def RankExact (c : Cell K) (n : Nat) : Prop := c.rank = n + 1

/-- With exact ranks the walk from `m` ends at the key at position `m - 1`; no key is at
rank zero. -/
theorem atRank_eq {t : BinaryTree (Cell K)} (ht : LeftSizes RankExact t) (m : BitVec 64) :
    atRank t m = if m = 0 then none else (keys t)[m.toNat - 1]? := by
  induction t generalizing m with
  | nil => simp [atRank, keys]
  | node c l r ihl ihr =>
    obtain ⟨hc, hl, hr⟩ := ht
    have hrank : ((avlGetRank c.word).setWidth 64).toNat = l.numNodes + 1 := by
      have h1 : (avlGetRank c.word).toNat = c.rank := rfl
      have h2 := c.rank_lt
      rw [BitVec.toNat_setWidth, h1]
      rw [RankExact] at hc
      omega
    have hm : m = 0 ↔ m.toNat = 0 := by
      rw [← BitVec.toNat_inj]
      rfl
    have hlen := keys_length l
    rw [atRank, keys_node]
    simp only [BitVec.lt_def, hrank]
    split
    · -- the key is on the left, or there is none
      rename_i hlt
      rw [ihl hl]
      split
      · rfl
      · rename_i hne
        rw [hm] at hne
        rw [List.getElem?_append_left (by omega)]
    split
    · -- the key is on the right
      rename_i hlt hgt
      have hsub : (m - (avlGetRank c.word).setWidth 64).toNat = m.toNat - (l.numNodes + 1) := by
        rw [BitVec.toNat_sub_of_le (by rw [BitVec.le_def, hrank]; omega), hrank]
      have hsub0 : ¬ m - (avlGetRank c.word).setWidth 64 = 0 := by
        intro h0
        have := congrArg BitVec.toNat h0
        rw [hsub] at this
        simp at this
        omega
      rw [ihr hr, if_neg hsub0, if_neg (by rw [hm]; omega), hsub,
        List.getElem?_append_right (by omega), hlen]
      obtain ⟨i, hi⟩ : ∃ i, m.toNat - 1 - l.numNodes = i + 1 := ⟨m.toNat - l.numNodes - 2, by omega⟩
      rw [hi, List.getElem?_cons_succ]
      congr 1
      omega
    · rw [if_neg (by rw [hm]; omega), List.getElem?_append_right (by omega), hlen]
      have h0 : m.toNat - 1 - l.numNodes = 0 := by omega
      rw [h0]
      rfl

/-- A tree in which no left subtree reaches the width of the rank field has exact ranks. -/
theorem ranked_exact {t : BinaryTree (Cell K)} (ht : AvlRanked t)
    (hsize : LeftSizes (fun _ n => n + 1 < 2 ^ 30) t) : LeftSizes RankExact t := by
  induction t with
  | nil => trivial
  | node c l r ihl ihr =>
    obtain ⟨hc, hl, hr⟩ := ht
    obtain ⟨hs, hsl, hsr⟩ := hsize
    refine ⟨?_, ihl hl hsl, ihr hr hsr⟩
    rw [RankIs, Nat.mod_eq_of_lt hs] at hc
    exact hc

end IcecastCommon.Avl
