import IcecastCommon.Avl.Tree

/- Deletion on trees. The search lowers the rank of every node it leaves to the
   left; a node with two children takes the key of its predecessor, which goes
   instead; the hole is then climbed out of, each step rebalanced while the
   subtree below has become shorter (`shrink`). When the key is absent the climb
   of `undo` puts the ranks back, all but one where the search fell off a right
   side. -/
namespace IcecastCommon.Avl
open Library BinaryTree

variable {K : Type}

/-- The path of the search below `fs`, ranks updated, and the subtree it stops at:
a node whose key compares equal, or nothing. -/
def deletePath (cmp : Option K → Option K → Int) (k : Option K) :
    List (Frame (Cell K)) → BinaryTree (Cell K) → List (Frame (Cell K)) × BinaryTree (Cell K)
  | fs, nil => (fs, nil)
  | fs, node c l r =>
    if cmp k c.key < 0 then deletePath cmp k (⟨.left, c.subRank 1, r⟩ :: fs) l
    else if 0 < cmp k c.key then deletePath cmp k (⟨.right, c, l⟩ :: fs) r
    else (fs, node c l r)

/-- One step of the climb that restores the ranks. -/
def undoFrame (f : Frame (Cell K)) : Frame (Cell K) :=
  match f.side with
  | .left => { f with value := f.value.addRank 1 }
  | .right => f

/-- The tree left behind when the search ends off the last node of the path: that
node's rank goes up by one, on whichever side the search left it. -/
def undo : List (Frame (Cell K)) → BinaryTree (Cell K)
  | [] => nil
  | f :: fs => plug ({ f with value := f.value.addRank 1 } :: fs.map undoFrame) nil

/-- The way down the right spine, innermost step first. -/
def rightmost : List (Frame (Cell K)) → BinaryTree (Cell K) → List (Frame (Cell K)) × BinaryTree (Cell K)
  | fs, nil => (fs, nil)
  | fs, node c l r =>
    match r with
    | nil => (fs, node c l nil)
    | node c' l' r' => rightmost (⟨.right, c, l⟩ :: fs) (node c' l' r')

/-- The path to the hole that deleting `node c l r` makes, the tree that fills it,
and the address that goes. -/
def deleteNode (fs : List (Frame (Cell K))) (c : Cell K) :
    BinaryTree (Cell K) → BinaryTree (Cell K) → List (Frame (Cell K)) × BinaryTree (Cell K) × Addr
  | nil, r => (fs, r, c.addr)
  | l, nil => (fs, l, c.addr)
  | l, r =>
    match rightmost [] l with
    | (gs, node y yl _) =>
      (gs ++ ⟨.left, { c with key := y.key }.subRank 1, r⟩ :: fs, yl, y.addr)
    | (gs, nil) => (gs, nil, c.addr)

/-- A step whose hole has become one level shorter; the second result says whether
the whole did. -/
def shrink (f : Frame (Cell K)) (t : BinaryTree (Cell K)) : BinaryTree (Cell K) × Bool :=
  let d := f.side
  let p := f.value
  if p.bal = 0 then (join d (p.setBal (-d.sign)) t f.sibling, false)
  else if p.bal = d.sign then (join d (p.setBal 0) t f.sibling, true)
  else match view d.flip f.sibling with
    | none => (f.plug t, false)
    | some (q, a, b) =>
      if q.bal = 0 then (rotateSingle d.flip (p.setBal (-d.sign)) (q.setBal d.sign) a b t, false)
      else if q.bal = p.bal then (rotateSingle d.flip (p.setBal 0) (q.setBal 0) a b t, true)
      else match view d.flip b with
        | none => (f.plug t, false)
        | some (r, x, y) =>
          (rotateDouble d.flip (p.setBal (if r.bal = -d.sign then d.sign else 0))
            (q.setBal (if r.bal = d.sign then -d.sign else 0)) (r.setBal 0) a x y t, true)

/-- The climb out of a hole, while the subtree below is shorter than it was. -/
def climb : List (Frame (Cell K)) → BinaryTree (Cell K) → Bool → BinaryTree (Cell K) × Bool
  | [], t, shorter => (t, shorter)
  | f :: fs, t, shorter =>
    if shorter then climb fs (shrink f t).1 (shrink f t).2
    else (plug (f :: fs) t, false)

/-- What deleting finds and leaves: the tree, the key and the address that go. -/
structure Deleted (K : Type) where
  tree : BinaryTree (Cell K)
  shorter : Bool
  key : Option K
  addr : Addr

/-- The tree after deleting `k`, or `none` when no key compares equal. -/
def deleteTree (cmp : Option K → Option K → Int) (k : Option K) (t : BinaryTree (Cell K)) :
    Option (Deleted K) :=
  match deletePath cmp k [] t with
  | (_, nil) => none
  | (fs, node c l r) =>
    let (path, child, gone) := deleteNode fs c l r
    some ⟨(climb path child true).1, (climb path child true).2, c.key, gone⟩

/-! The search. -/

theorem deletePath_inorder {β : Type} {π : Cell K → β} (hπ : WordFree π)
    (cmp : Option K → Option K → Int) (k : Option K) (fs : List (Frame (Cell K)))
    (t : BinaryTree (Cell K)) :
    (inorder (plug (deletePath cmp k fs t).1 (deletePath cmp k fs t).2)).map π =
      (inorder (plug fs t)).map π := by
  induction t generalizing fs with
  | nil => rfl
  | node c l r ihl ihr =>
    rw [deletePath]
    split
    · rw [ihl]
      simp [inorder_plug, Frame.plug, hπ.subRank]
    split
    · rw [ihr]
      simp [inorder_plug, Frame.plug]
    · rfl

theorem deletePath_balanced (cmp : Option K → Option K → Int) (k : Option K)
    (fs : List (Frame (Cell K))) (t : BinaryTree (Cell K)) :
    AvlBalanced (plug (deletePath cmp k fs t).1 (deletePath cmp k fs t).2) ↔
      AvlBalanced (plug fs t) := by
  induction t generalizing fs with
  | nil => rfl
  | node c l r ihl ihr =>
    rw [deletePath]
    split
    · rw [ihl, plug_cons]
      simp [balanced_plug, Frame.plug]
    split
    · rw [ihr, plug_cons]
      rfl
    · rfl

theorem deletePath_height (cmp : Option K → Option K → Int) (k : Option K)
    (fs : List (Frame (Cell K))) (t : BinaryTree (Cell K)) :
    heightUp (deletePath cmp k fs t).1 (deletePath cmp k fs t).2.height = heightUp fs t.height := by
  induction t generalizing fs with
  | nil => rfl
  | node c l r ihl ihr =>
    rw [deletePath]
    split
    · rw [ihl, heightUp, height]
    split
    · rw [ihr, heightUp, height, Nat.max_comm]
    · rfl

/-- When the key is found the path is right for one node less. -/
theorem deletePath_ranked (cmp : Option K → Option K → Int) (k : Option K)
    (fs : List (Frame (Cell K))) (t : BinaryTree (Cell K))
    (hfs : SizesFit RankIs fs (t.numNodes - 1)) (ht : AvlRanked t)
    (hfound : (deletePath cmp k fs t).2 ≠ nil) :
    SizesFit RankIs (deletePath cmp k fs t).1 ((deletePath cmp k fs t).2.numNodes - 1) ∧
      AvlRanked (deletePath cmp k fs t).2 := by
  induction t generalizing fs with
  | nil => exact absurd rfl hfound
  | node c l r ihl ihr =>
    obtain ⟨hc, hl, hr⟩ := ht
    rw [deletePath] at hfound ⊢
    split
    · rename_i hlt
      rw [if_pos hlt] at hfound
      have hpos : 0 < l.numNodes := by
        cases l with
        | nil => exact absurd rfl hfound
        | node c' l' r' => simp
      refine ihl _ ⟨⟨?_, hr⟩, ?_⟩ hl hfound
      · simp only [RankIs, Cell.rank_subRank_one] at hc ⊢
        omega
      · have e : r.numNodes + (l.numNodes - 1) + 1 = (node c l r).numNodes - 1 := by
          simp only [numNodes]; omega
        rw [e]
        exact hfs
    rename_i hlt
    rw [if_neg hlt] at hfound
    split
    · rename_i hgt
      rw [if_pos hgt] at hfound
      have hpos : 0 < r.numNodes := by
        cases r with
        | nil => exact absurd rfl hfound
        | node c' l' r' => simp
      refine ihr _ ⟨⟨hc, hl⟩, ?_⟩ hr hfound
      have e : l.numNodes + (r.numNodes - 1) + 1 = (node c l r).numNodes - 1 := by
        simp only [numNodes]; omega
      rw [e]
      exact hfs
    · exact ⟨hfs, hc, hl, hr⟩

theorem deletePath_found {cmp : Option K → Option K → Int} {k : Option K}
    {fs gs : List (Frame (Cell K))} {t l r : BinaryTree (Cell K)} {c : Cell K}
    (h : deletePath cmp k fs t = (gs, node c l r)) : cmp k c.key = 0 := by
  induction t generalizing fs with
  | nil => simp [deletePath] at h
  | node c' l' r' ihl ihr =>
    rw [deletePath] at h
    split at h
    · exact ihl h
    split at h
    · exact ihr h
    · rename_i h1 h2
      have : c' = c ∧ l' = l ∧ r' = r := by simpa using (Prod.mk.inj h).2
      rw [← this.1]
      omega

/-! The way back. -/

theorem undo_inorder {β : Type} {π : Cell K → β} (hπ : WordFree π) (fs : List (Frame (Cell K))) :
    (inorder (undo fs)).map π = (inorder (plug fs nil)).map π := by
  have step : ∀ f : Frame (Cell K), ((undoFrame f).before.map π = f.before.map π) ∧
      ((undoFrame f).after.map π = f.after.map π) := by
    intro f
    rcases f with ⟨_ | _, a, s⟩ <;> simp [undoFrame, Frame.before, Frame.after, hπ.addRank]
  have hb : ∀ gs : List (Frame (Cell K)), (before (gs.map undoFrame)).map π = (before gs).map π ∧
      (after (gs.map undoFrame)).map π = (after gs).map π := by
    intro gs
    induction gs with
    | nil => exact ⟨rfl, rfl⟩
    | cons f fs ih => simp [before, after, ih.1, ih.2, step]
  cases fs with
  | nil => rfl
  | cons f fs =>
    rcases f with ⟨_ | _, a, s⟩ <;>
      simp [undo, inorder_plug, Frame.plug, (hb fs).1, (hb fs).2, hπ.addRank]

theorem undo_balanced (fs : List (Frame (Cell K))) :
    AvlBalanced (undo fs) ↔ AvlBalanced (plug fs nil) := by
  have hb : ∀ (gs : List (Frame (Cell K))) (n : Nat),
      Fits Cell.bal (gs.map undoFrame) n ↔ Fits Cell.bal gs n := by
    intro gs
    induction gs with
    | nil => exact fun _ => Iff.rfl
    | cons f fs ih =>
      intro n
      rw [List.map_cons, Fits_cons, Fits_cons, ih]
      rcases f with ⟨_ | _, a, s⟩ <;> simp [undoFrame, Frame.Fits]
  cases fs with
  | nil => rfl
  | cons f fs =>
    rw [undo, avlBalanced_plug, avlBalanced_plug, Fits_cons, Fits_cons, hb]
    simp [Frame.Fits]

/-! The predecessor. -/

theorem rightmost_spec (fs : List (Frame (Cell K))) {t : BinaryTree (Cell K)} (h : t ≠ nil) :
    ∃ gs y yl, rightmost fs t = (gs ++ fs, node y yl nil) ∧ t = plug gs (node y yl nil) ∧
      ∀ g ∈ gs, g.side = .right := by
  -- on the tree: to the right as long as there is a right child
  induction t generalizing fs with
  | nil => exact absurd rfl h
  | node c l r _ ihr =>
    cases r with
    | nil => exact ⟨[], c, l, rfl, rfl, by simp⟩
    | node c' l' r' =>
      obtain ⟨gs, y, yl, e, ht, hs⟩ := ihr (⟨.right, c, l⟩ :: fs) (by simp)
      refine ⟨gs ++ [⟨.right, c, l⟩], y, yl, ?_, ?_, ?_⟩
      · rw [rightmost, e, List.append_assoc]
        rfl
      · rw [plug_append, ← ht]
        rfl
      · intro g hg
        rcases List.mem_append.mp hg with hg | hg
        · exact hs g hg
        · rw [List.mem_singleton.mp hg]

/-- The three shapes of a deleted node: no left child, no right child, or both and
the predecessor `y` goes in its place. -/
theorem deleteNode_cases (fs : List (Frame (Cell K))) (c : Cell K) (l r : BinaryTree (Cell K)) :
    (l = nil ∧ deleteNode fs c l r = (fs, r, c.addr)) ∨
    (r = nil ∧ deleteNode fs c l r = (fs, l, c.addr)) ∨
    ∃ gs y yl, l = plug gs (node y yl nil) ∧ (∀ g ∈ gs, g.side = .right) ∧ r ≠ nil ∧
      deleteNode fs c l r =
        (gs ++ ⟨.left, { c with key := y.key }.subRank 1, r⟩ :: fs, yl, y.addr) := by
  cases l with
  | nil => exact Or.inl ⟨rfl, rfl⟩
  | node cl ll lr =>
    cases r with
    | nil => exact Or.inr (Or.inl ⟨rfl, rfl⟩)
    | node cr rl rr =>
      obtain ⟨gs, y, yl, e, ht, hs⟩ := rightmost_spec [] (t := node cl ll lr) (by simp)
      refine Or.inr (Or.inr ⟨gs, y, yl, ht, hs, by simp, ?_⟩)
      rw [deleteNode, e, List.append_nil]
      all_goals simp

theorem after_right {gs : List (Frame (Cell K))} (h : ∀ g ∈ gs, g.side = .right) : after gs = [] := by
  induction gs with
  | nil => rfl
  | cons g gs ih =>
    have hg : g.after = [] := by rw [Frame.after, h g (by simp)]
    rw [after, hg, ih fun x hx => h x (by simp [hx])]
    rfl

/-- Deleting a node takes its key out of the sequence. -/
theorem deleteNode_keys (fs : List (Frame (Cell K))) (c : Cell K) (l r : BinaryTree (Cell K)) :
    keys (plug (deleteNode fs c l r).1 (deleteNode fs c l r).2.1) =
      (before fs).map Cell.key ++ keys l ++ (keys r ++ (after fs).map Cell.key) := by
  rcases deleteNode_cases fs c l r with ⟨rfl, e⟩ | ⟨rfl, e⟩ | ⟨gs, y, yl, rfl, hs, _, e⟩ <;> rw [e]
  · simp [keys, inorder_plug]
  · simp [keys, inorder_plug]
  · simp [keys, inorder_plug, plug_append, after_right hs, Frame.plug]

theorem deleteNode_balanced {fs : List (Frame (Cell K))} {c : Cell K} {l r : BinaryTree (Cell K)}
    (h : AvlBalanced (plug fs (node c l r))) :
    Fits Cell.bal (deleteNode fs c l r).1 ((deleteNode fs c l r).2.1.height + 1) ∧
      AvlBalanced (deleteNode fs c l r).2.1 ∧
      heightUp (deleteNode fs c l r).1 ((deleteNode fs c l r).2.1.height + 1) =
        (plug fs (node c l r)).height := by
  obtain ⟨hfs, hc, hlo, hhi, hl, hr⟩ := (avlBalanced_plug ..).mp h
  rw [height_plug]
  rcases deleteNode_cases fs c l r with ⟨rfl, e⟩ | ⟨rfl, e⟩ | ⟨gs, y, yl, rfl, hs, _, e⟩ <;> rw [e]
  · have hh : (node c nil r).height = r.height + 1 := by simp
    rw [hh] at hfs ⊢
    exact ⟨hfs, hr, rfl⟩
  · have hh : (node c l nil).height = l.height + 1 := by simp
    rw [hh] at hfs ⊢
    exact ⟨hfs, hl, rfl⟩
  · obtain ⟨hgs, _, _, _, hyl, _⟩ := (avlBalanced_plug ..).mp hl
    have hh : (node y yl nil).height = yl.height + 1 := by simp
    rw [hh] at hgs
    have hup : heightUp gs (yl.height + 1) = (plug gs (node y yl nil)).height := by
      rw [height_plug, hh]
    have hbal : ({ c with key := y.key }.subRank 1).bal = c.bal := Cell.subRank_bal _ _
    refine ⟨?_, hyl, ?_⟩
    · rw [Fits_append, hup]
      refine ⟨hgs, ⟨?_, by rwa [hbal], by rwa [hbal], hr⟩, hfs⟩
      rw [hbal, hc]
      simp
    · rw [heightUp_append, hup]
      rfl

/-- On the right spine the size of the hole does not enter. -/
theorem sizesFit_right {R : Cell K → Nat → Prop} {gs : List (Frame (Cell K))} {n : Nat} (m : Nat)
    (h : ∀ g ∈ gs, g.side = .right) (hgs : SizesFit R gs n) : SizesFit R gs m := by
  induction gs generalizing n m with
  | nil => trivial
  | cons g gs ih =>
    have hg := h g (by simp)
    obtain ⟨⟨hR, hs⟩, hrest⟩ := hgs
    rcases g with ⟨_ | _, a, s⟩
    · cases hg
    · exact ⟨⟨hR, hs⟩, ih _ (fun x hx => h x (by simp [hx])) hrest⟩

theorem deleteNode_ranked {fs : List (Frame (Cell K))} {c : Cell K} {l r : BinaryTree (Cell K)}
    (hfs : SizesFit RankIs fs ((node c l r).numNodes - 1)) (h : AvlRanked (node c l r)) :
    AvlRanked (plug (deleteNode fs c l r).1 (deleteNode fs c l r).2.1) := by
  obtain ⟨hc, hl, hr⟩ := h
  rcases deleteNode_cases fs c l r with ⟨rfl, e⟩ | ⟨rfl, e⟩ | ⟨gs, y, yl, rfl, hs, _, e⟩ <;> rw [e]
  · refine (leftSizes_plug ..).mpr ⟨?_, hr⟩
    simpa using hfs
  · refine (leftSizes_plug ..).mpr ⟨?_, hl⟩
    simpa using hfs
  · obtain ⟨hgs, _, hyl, _⟩ := (leftSizes_plug ..).mp hl
    refine (leftSizes_plug ..).mpr ⟨(SizesFit_append ..).mpr ⟨sizesFit_right _ hs hgs, ⟨?_, hr⟩, ?_⟩, hyl⟩
    · have hrank : ({ c with key := y.key }.subRank 1).rank = (c.rank + (2 ^ 32 - 1)) % 2 ^ 30 :=
        Cell.rank_subRank_one _
      simp only [RankIs, hrank, numNodes_plug, numNodes] at hc ⊢
      omega
    · have e : r.numNodes + (outside gs + yl.numNodes) + 1 =
          (node c (plug gs (node y yl nil)) r).numNodes - 1 := by
        simp only [numNodes, numNodes_plug]; omega
      show SizesFit RankIs fs (r.numNodes + (outside gs + yl.numNodes) + 1)
      rwa [e]

/-! The climb. -/

theorem shrink_inorder {β : Type} {π : Cell K → β} (hπ : WordFree π) (f : Frame (Cell K))
    (t : BinaryTree (Cell K)) :
    (inorder (shrink f t).1).map π = (inorder (f.plug t)).map π := by
  obtain ⟨d, p, sib⟩ := f
  simp only [shrink, Frame.plug]
  split
  · cases d <;> simp [hπ.setBal]
  split
  · cases d <;> simp [hπ.setBal]
  rcases eq_or_ne sib nil with rfl | hc
  · simp
  obtain ⟨q, a, b, rfl⟩ := exists_join d.flip hc
  simp only [view_join]
  split
  · rw [rotateSingle_inorder hπ]
    cases d <;> simp [hπ.setBal]
  split
  · rw [rotateSingle_inorder hπ]
    cases d <;> simp [hπ.setBal]
  rcases eq_or_ne b nil with rfl | hb
  · simp
  obtain ⟨r, x, y, rfl⟩ := exists_join d.flip hb
  simp only [view_join]
  rw [rotateDouble_inorder hπ]
  cases d <;> simp [hπ.setBal]

theorem shrink_ranked {f : Frame (Cell K)} {t : BinaryTree (Cell K)} (h : AvlRanked (f.plug t)) :
    AvlRanked (shrink f t).1 := by
  obtain ⟨d, p, sib⟩ := f
  simp only [shrink, Frame.plug] at h ⊢
  split
  · cases d <;> simpa [RankIs, Cell.rank_setBal] using h
  split
  · cases d <;> simpa [RankIs] using h
  rcases eq_or_ne sib nil with rfl | hc
  · exact h
  obtain ⟨q, a, b, rfl⟩ := exists_join d.flip hc
  simp only [view_join]
  split
  · apply rotateSingle_ranked
    cases d <;> simpa [RankIs, Cell.rank_setBal] using h
  split
  · apply rotateSingle_ranked
    cases d <;> simpa [RankIs] using h
  rcases eq_or_ne b nil with rfl | hb
  · exact h
  obtain ⟨r, x, y, rfl⟩ := exists_join d.flip hb
  simp only [view_join]
  apply rotateDouble_ranked
  split <;> split <;> cases d <;> simpa [RankIs, Cell.rank_setBal] using h

/-- One step of the climb: the hole's tree has height one less than the step fits,
the result is balanced and its height is the old one, or one less where the step
says so. -/
theorem shrink_balanced {f : Frame (Cell K)} {t : BinaryTree (Cell K)}
    (hf : f.Fits Cell.bal (t.height + 1)) (ht : AvlBalanced t) :
    AvlBalanced (shrink f t).1 ∧
      (shrink f t).1.height + (if (shrink f t).2 then 1 else 0) =
        max (t.height + 1) f.sibling.height + 1 := by
  obtain ⟨d, p, sib⟩ := f
  obtain ⟨hb, hlo, hhi, hsib⟩ := hf
  replace hsib : AvlBalanced sib := hsib
  simp only at hb hlo hhi
  simp only [shrink]
  split
  · rename_i h0
    have hn : t.height + 1 = sib.height := by cases d <;> simp at hb <;> omega
    refine ⟨?_, ?_⟩
    · simp only [avlBalanced_join, Cell.bal_setBal_neg_sign, ← hn]
      cases d <;> simp [ht, hsib]
    · simp only [height_join, Bool.false_eq_true, if_false]
      omega
  split
  · rename_i h0 h1
    have hn : t.height = sib.height := by cases d <;> simp at hb h1 <;> omega
    refine ⟨?_, ?_⟩
    · simp only [avlBalanced_join, Cell.bal_setBal_zero, ← hn]
      refine ⟨by simp, by decide, by decide, ht, hsib⟩
    · simp only [height_join, if_true]
      omega
  · -- the sibling was already the taller one
    rename_i h0 h1
    have hn : sib.height = t.height + 2 ∧ p.bal = -d.sign := by
      cases d <;> simp at hb h1 ⊢ <;> omega
    obtain ⟨hn, hp⟩ := hn
    clear hb h0 h1
    have hne : sib ≠ nil := by
      rintro rfl
      simp at hn
    obtain ⟨q, a, b, rfl⟩ := exists_join d.flip hne
    rw [avlBalanced_join, Side.sign_flip] at hsib
    obtain ⟨hqb, hqlo, hqhi, ha, hb⟩ := hsib
    simp only [height_join] at hn ⊢
    simp only [view_join, hp]
    split
    · rename_i hq
      have hab : a.height = t.height + 1 ∧ b.height = t.height + 1 := by
        cases d <;> simp at hqb <;> omega
      refine ⟨?_, ?_⟩
      · simp only [rotateSingle_balanced, avlBalanced_join, height_join, Cell.bal_setBal_sign,
          Cell.bal_setBal_neg_sign, hab]
        cases d <;> simp [ha, hb, ht]
      · simp only [rotateSingle_height, hab, Bool.false_eq_true, if_false]
        omega
    split
    · rename_i hq0 hq
      have hab : a.height = t.height + 1 ∧ b.height = t.height := by
        cases d <;> simp at hqb hq <;> omega
      refine ⟨?_, ?_⟩
      · simp only [rotateSingle_balanced, avlBalanced_join, height_join, Cell.bal_setBal_zero, hab]
        cases d <;> simp [ha, hb, ht]
      · simp only [rotateSingle_height, hab, if_true]
        omega
    · rename_i hq0 hq
      have hab : a.height = t.height ∧ b.height = t.height + 1 := by
        cases d <;> simp at hqb hq <;> omega
      clear hqb hq hq0
      have hbne : b ≠ nil := by
        rintro rfl
        simp at hab
      obtain ⟨r, x, y, rfl⟩ := exists_join d.flip hbne
      rw [avlBalanced_join, Side.sign_flip] at hb
      obtain ⟨hrb, hrlo, hrhi, hx, hy⟩ := hb
      simp only [height_join] at hab
      simp only [view_join]
      refine ⟨?_, ?_⟩
      · simp only [rotateDouble_balanced, avlBalanced_join, height_join, Cell.bal_setBal_zero,
          Side.sign_flip]
        refine ⟨?_, by decide, by decide, ⟨?_, ?_, ?_, ha, hx⟩, ?_, ?_, ?_, hy, ht⟩
        · cases d <;> simp only [Side.sign_left, Side.sign_right] at hrb ⊢ <;> omega
        all_goals
          simp only [Cell.bal_setBal_ite_sign, Cell.bal_setBal_ite_neg_sign]
          cases d <;> simp only [Side.sign_left, Side.sign_right] at hrb ⊢ <;> omega
      · simp only [rotateDouble_height, if_true]
        cases d <;> simp only [Side.sign_left, Side.sign_right] at hrb <;> omega

theorem climb_inorder {β : Type} {π : Cell K → β} (hπ : WordFree π) (fs : List (Frame (Cell K)))
    (t : BinaryTree (Cell K)) (shorter : Bool) :
    (inorder (climb fs t shorter).1).map π = (inorder (plug fs t)).map π := by
  induction fs generalizing t shorter with
  | nil => rfl
  | cons f fs ih =>
    rw [climb]
    split
    · rw [ih, plug_cons, inorder_plug, inorder_plug]
      simp only [List.map_append, shrink_inorder hπ]
    · rfl

theorem climb_ranked {fs : List (Frame (Cell K))} {t : BinaryTree (Cell K)} {shorter : Bool}
    (h : AvlRanked (plug fs t)) : AvlRanked (climb fs t shorter).1 := by
  induction fs generalizing t shorter with
  | nil => exact h
  | cons f fs ih =>
    rw [climb]
    split
    · apply ih
      rw [plug_cons] at h
      obtain ⟨hfs, hf⟩ := (leftSizes_plug ..).mp h
      refine (leftSizes_plug ..).mpr ⟨?_, shrink_ranked hf⟩
      rwa [numNodes_eq_of_inorder (shrink_inorder wordFree_addr f t)]
    · exact h

/-- The climb: the context fits the height the hole's tree had. -/
theorem climb_balanced {fs : List (Frame (Cell K))} {t : BinaryTree (Cell K)} (shorter : Bool)
    (hfs : Fits Cell.bal fs (t.height + (if shorter then 1 else 0))) (ht : AvlBalanced t) :
    AvlBalanced (climb fs t shorter).1 ∧
      (climb fs t shorter).1.height + (if (climb fs t shorter).2 then 1 else 0) =
        heightUp fs (t.height + (if shorter then 1 else 0)) := by
  -- on the path: a step that restores the height ends the climb
  induction fs generalizing t shorter with
  | nil => exact ⟨ht, rfl⟩
  | cons f fs ih =>
    cases shorter with
    | false => exact ⟨(avlBalanced_plug ..).mpr ⟨hfs, ht⟩, height_plug (f :: fs) t⟩
    | true =>
      obtain ⟨hf, hrest⟩ := hfs
      simp only [if_true] at hf hrest
      obtain ⟨hbal, hh⟩ := shrink_balanced hf ht
      rw [climb, if_pos rfl]
      rw [← hh] at hrest
      obtain ⟨ih1, ih2⟩ := ih _ hrest hbal
      refine ⟨ih1, ?_⟩
      rw [ih2, heightUp, if_pos rfl, hh]

end IcecastCommon.Avl
