import IcecastCommon.Avl.Tree

/- Insertion on trees. The new node is hung below the path the comparisons take,
   the ranks of the nodes left behind on their left side going up by one; the
   critical node is the last one on that path with a non-zero balance, or the top
   one; below it every balance is settled to the side of the path, and at it the
   balance changes or a rotation is made (`insertFix`). -/
namespace IcecastCommon.Avl
open Library BinaryTree

variable {K : Type}

/-- The path of the descent below `fs`, innermost step first, ranks updated. -/
def insertPath (cmp : Option K → Option K → Int) (k : Option K) :
    List (Frame (Cell K)) → BinaryTree (Cell K) → List (Frame (Cell K))
  | fs, nil => fs
  | fs, node c l r =>
    if cmp k c.key < 1 then insertPath cmp k (⟨.left, c.addRank 1, r⟩ :: fs) l
    else insertPath cmp k (⟨.right, c, l⟩ :: fs) r

/-- The steps below the critical node, the critical step, the steps above it. -/
def critical : List (Frame (Cell K)) →
    Option (List (Frame (Cell K)) × Frame (Cell K) × List (Frame (Cell K)))
  | [] => none
  | f :: fs =>
    if f.value.bal ≠ 0 then some ([], f, fs)
    else match critical fs with
      | none => some ([], f, [])
      | some (below, s, above) => some (f :: below, s, above)

/-- A step of balance zero whose hole has grown by one level. -/
def settle (f : Frame (Cell K)) : Frame (Cell K) := { f with value := f.value.setBal f.side.sign }

/-- The critical node `s` once the child on its side `d` has grown; the second
result says whether the whole grew. -/
def insertFix (d : Side) (s : Cell K) (child sib : BinaryTree (Cell K)) : BinaryTree (Cell K) × Bool :=
  if s.bal = 0 then (join d (s.setBal d.sign) child sib, true)
  else if s.bal = -d.sign then (join d (s.setBal 0) child sib, false)
  else match view d child with
    | none => (join d s child sib, false)
    | some (r, a, b) =>
      if r.bal = d.sign then (rotateSingle d (s.setBal 0) (r.setBal 0) a b sib, false)
      else match view d b with
        | none => (join d s child sib, false)
        | some (p, x, y) =>
          (rotateDouble d (s.setBal (if p.bal = d.sign then -d.sign else 0))
            (r.setBal (if p.bal = -d.sign then d.sign else 0)) (p.setBal 0) a x y sib, false)

/-- The tree after inserting `new`, and whether it grew. -/
def insertTree (cmp : Option K → Option K → Int) (new : Cell K) (t : BinaryTree (Cell K)) :
    BinaryTree (Cell K) × Bool :=
  match critical (insertPath cmp new.key [] t) with
  | none => (node new nil nil, false)
  | some (below, s, above) =>
    let (top, grew) := insertFix s.side s.value (plug (below.map settle) (node new nil nil)) s.sibling
    (plug above top, grew)

/-! The path. -/

theorem insertPath_inorder {β : Type} {π : Cell K → β} (hπ : WordFree π)
    (cmp : Option K → Option K → Int) (k : Option K) (fs : List (Frame (Cell K)))
    (t : BinaryTree (Cell K)) :
    (inorder (plug (insertPath cmp k fs t) nil)).map π = (inorder (plug fs t)).map π := by
  induction t generalizing fs with
  | nil => rfl
  | node c l r ihl ihr =>
    rw [insertPath]
    split
    · rw [ihl]
      simp [inorder_plug, Frame.plug, hπ.addRank]
    · rw [ihr]
      simp [inorder_plug, Frame.plug]

theorem insertPath_balanced (cmp : Option K → Option K → Int) (k : Option K)
    (fs : List (Frame (Cell K))) (t : BinaryTree (Cell K)) :
    AvlBalanced (plug (insertPath cmp k fs t) nil) ↔ AvlBalanced (plug fs t) := by
  induction t generalizing fs with
  | nil => rfl
  | node c l r ihl ihr =>
    rw [insertPath]
    split
    · rw [ihl, plug_cons]
      simp [balanced_plug, Frame.plug]
    · rw [ihr, plug_cons]
      rfl

theorem insertPath_height (cmp : Option K → Option K → Int) (k : Option K)
    (fs : List (Frame (Cell K))) (t : BinaryTree (Cell K)) :
    heightUp (insertPath cmp k fs t) 0 = heightUp fs t.height := by
  induction t generalizing fs with
  | nil => rfl
  | node c l r ihl ihr =>
    rw [insertPath]
    split
    · rw [ihl, heightUp, height]
    · rw [ihr, heightUp, height, Nat.max_comm]

/-- The eager rank updates of the descent make the path right for one node more. -/
theorem insertPath_ranked (cmp : Option K → Option K → Int) (k : Option K)
    (fs : List (Frame (Cell K))) (t : BinaryTree (Cell K))
    (hfs : SizesFit RankIs fs (t.numNodes + 1)) (ht : AvlRanked t) :
    SizesFit RankIs (insertPath cmp k fs t) 1 := by
  induction t generalizing fs with
  | nil => exact hfs
  | node c l r ihl ihr =>
    obtain ⟨hc, hl, hr⟩ := ht
    rw [insertPath]
    split
    · refine ihl _ ⟨⟨?_, hr⟩, ?_⟩ hl
      · simp only [RankIs, Cell.rank_addRank_one] at hc ⊢
        omega
      · have e : r.numNodes + (l.numNodes + 1) + 1 = (node c l r).numNodes + 1 := by
          simp only [numNodes]; omega
        rw [e]
        exact hfs
    · refine ihr _ ⟨⟨hc, hl⟩, ?_⟩ hr
      have e : l.numNodes + (r.numNodes + 1) + 1 = (node c l r).numNodes + 1 := by
        simp only [numNodes]; omega
      rw [e]
      exact hfs

theorem insertPath_ne_nil (cmp : Option K → Option K → Int) (k : Option K)
    (fs : List (Frame (Cell K))) (t : BinaryTree (Cell K)) (h : fs ≠ [] ∨ t ≠ nil) :
    insertPath cmp k fs t ≠ [] := by
  induction t generalizing fs with
  | nil => simpa [insertPath] using h
  | node c l r ihl ihr =>
    rw [insertPath]
    split
    · exact ihl _ (Or.inl (by simp))
    · exact ihr _ (Or.inl (by simp))

/-! The critical node. -/

theorem critical_eq_none {fs : List (Frame (Cell K))} : critical fs = none ↔ fs = [] := by
  cases fs with
  | nil => simp [critical]
  | cons f fs =>
    simp only [critical]
    split
    · simp
    · split <;> simp

theorem critical_spec {fs below above : List (Frame (Cell K))} {s : Frame (Cell K)}
    (h : critical fs = some (below, s, above)) :
    fs = below ++ s :: above ∧ (∀ f ∈ below, f.value.bal = 0) ∧ (s.value.bal = 0 → above = []) := by
  -- on the path, from the new node up to the first one that is not balanced
  induction fs generalizing below s above with
  | nil => simp [critical] at h
  | cons f fs ih =>
    simp only [critical] at h
    split at h
    · rename_i hb
      obtain ⟨rfl, rfl, rfl⟩ : [] = below ∧ f = s ∧ fs = above := by simpa using h
      exact ⟨rfl, by simp, fun h0 => absurd h0 hb⟩
    · rename_i hb
      split at h
      · rename_i hn
        obtain ⟨rfl, rfl, rfl⟩ : [] = below ∧ f = s ∧ [] = above := by simpa using h
        rw [critical_eq_none.mp hn]
        exact ⟨rfl, by simp, fun _ => rfl⟩
      · rename_i b s' a hs
        obtain ⟨rfl, rfl, rfl⟩ : f :: b = below ∧ s' = s ∧ a = above := by simpa using h
        obtain ⟨e, hz, ht⟩ := ih hs
        refine ⟨by rw [e]; rfl, ?_, ht⟩
        intro g hg
        rcases List.mem_cons.mp hg with rfl | hg
        · exact not_not.mp hb
        · exact hz g hg

/-- Steps of balance zero, settled, take a hole one level higher to a whole one
level higher. -/
theorem settle_fits {fs : List (Frame (Cell K))} {n : Nat} (hz : ∀ f ∈ fs, f.value.bal = 0)
    (h : Fits Cell.bal fs n) :
    Fits Cell.bal (fs.map settle) (n + 1) ∧ heightUp (fs.map settle) (n + 1) = heightUp fs n + 1 := by
  induction fs generalizing n with
  | nil => simp [heightUp]
  | cons f fs ih =>
    obtain ⟨⟨hb, _, _, hs⟩, hfs⟩ := h
    rw [hz f (by simp)] at hb
    have hn : n = f.sibling.height := by
      rcases f with ⟨_ | _, a, s⟩ <;> simp at hb ⊢ <;> omega
    have hmax : max (n + 1) f.sibling.height + 1 = (max n f.sibling.height + 1) + 1 := by omega
    obtain ⟨ih1, ih2⟩ := ih (fun g hg => hz g (by simp [hg])) hfs
    rw [List.map_cons, Fits_cons, heightUp, heightUp]
    refine ⟨⟨⟨?_, ?_, ?_, hs⟩, ?_⟩, ?_⟩
    · rw [settle, Cell.bal_setBal_sign, hn]
      simp
    · rw [settle, Cell.bal_setBal_sign]; exact f.side.sign_bounds.1
    · rw [settle, Cell.bal_setBal_sign]; exact f.side.sign_bounds.2
    · show Fits _ _ (max (n + 1) f.sibling.height + 1)
      rw [hmax]; exact ih1
    · show heightUp _ (max (n + 1) f.sibling.height + 1) = _
      rw [hmax]; exact ih2

theorem settle_sizesFit {fs : List (Frame (Cell K))} {n : Nat} (h : SizesFit RankIs fs n) :
    SizesFit RankIs (fs.map settle) n := by
  induction fs generalizing n with
  | nil => trivial
  | cons f fs ih =>
    obtain ⟨⟨hf, hs⟩, hfs⟩ := h
    refine ⟨⟨?_, hs⟩, ih hfs⟩
    rcases f with ⟨_ | _, a, s⟩ <;> simpa [settle, RankIs, Cell.rank_setBal] using hf

theorem settle_inorder {β : Type} {π : Cell K → β} (hπ : WordFree π) (fs : List (Frame (Cell K)))
    (t : BinaryTree (Cell K)) :
    (inorder (plug (fs.map settle) t)).map π = (inorder (plug fs t)).map π := by
  have step : ∀ f : Frame (Cell K), ((settle f).before.map π = f.before.map π) ∧
      ((settle f).after.map π = f.after.map π) := by
    intro f
    rcases f with ⟨_ | _, a, s⟩ <;> simp [settle, Frame.before, Frame.after, hπ.setBal]
  have hb : (before (fs.map settle)).map π = (before fs).map π ∧
      (after (fs.map settle)).map π = (after fs).map π := by
    induction fs with
    | nil => exact ⟨rfl, rfl⟩
    | cons f fs ih => simp [before, after, ih.1, ih.2, step]
  simp [inorder_plug, hb.1, hb.2]

/-- The root of the settled subtree leans to a side, unless the subtree is the new
node alone. -/
theorem settle_root (fs : List (Frame (Cell K))) (new : Cell K) (d : Side) :
    fs = [] ∨ ∃ r a b, plug (fs.map settle) (node new nil nil) = join d r a b ∧ r.bal ≠ 0 := by
  induction fs using List.reverseRecOn with
  | nil => exact Or.inl rfl
  | append_singleton fs f _ =>
    right
    have hne : f.side.sign ≠ 0 := by cases f.side <;> decide
    rw [List.map_append, plug_append]
    by_cases hd : f.side = d
    · exact ⟨_, _, _, by rw [← hd]; rfl, by simp [settle, hne]⟩
    · have hd' : f.side = d.flip := by cases d <;> cases hf : f.side <;> simp_all
      refine ⟨(settle f).value, f.sibling, plug (fs.map settle) (node new nil nil), ?_, by simp [settle, hne]⟩
      rw [← join_flip, ← hd']
      rfl

/-! The repair. -/

theorem insertFix_inorder {β : Type} {π : Cell K → β} (hπ : WordFree π) (d : Side) (s : Cell K)
    (child sib : BinaryTree (Cell K)) :
    (inorder (insertFix d s child sib).1).map π = (inorder (join d s child sib)).map π := by
  rw [insertFix]
  split
  · cases d <;> simp [hπ.setBal]
  split
  · cases d <;> simp [hπ.setBal]
  rcases eq_or_ne child nil with rfl | hc
  · simp
  obtain ⟨r, a, b, rfl⟩ := exists_join d hc
  simp only [view_join]
  split
  · rw [rotateSingle_inorder hπ]
    cases d <;> simp [hπ.setBal]
  rcases eq_or_ne b nil with rfl | hb
  · simp
  obtain ⟨p, x, y, rfl⟩ := exists_join d hb
  simp only [view_join]
  rw [rotateDouble_inorder hπ]
  cases d <;> simp [hπ.setBal]

theorem insertFix_ranked {d : Side} {s : Cell K} {child sib : BinaryTree (Cell K)}
    (h : AvlRanked (join d s child sib)) : AvlRanked (insertFix d s child sib).1 := by
  rw [insertFix]
  split
  · cases d <;> simpa [RankIs, Cell.rank_setBal] using h
  split
  · cases d <;> simpa [RankIs] using h
  rcases eq_or_ne child nil with rfl | hc
  · exact h
  obtain ⟨r, a, b, rfl⟩ := exists_join d hc
  simp only [view_join]
  split
  · apply rotateSingle_ranked
    cases d <;> simpa [RankIs] using h
  rcases eq_or_ne b nil with rfl | hb
  · exact h
  obtain ⟨p, x, y, rfl⟩ := exists_join d hb
  simp only [view_join]
  apply rotateDouble_ranked
  split <;> split <;> cases d <;> simpa [RankIs, Cell.rank_setBal] using h

/-- The repair of a node whose child on side `d` grew from height `n`: balanced,
and taller only where the node was level. -/
theorem insertFix_balanced {d : Side} {s : Cell K} {child sib : BinaryTree (Cell K)} {n : Nat}
    (hs : Frame.Fits Cell.bal ⟨d, s, sib⟩ n) (hh : child.height = n + 1) (hc : AvlBalanced child)
    (hroot : n = 0 ∨ ∃ r a b, child = join d r a b ∧ r.bal ≠ 0) :
    AvlBalanced (insertFix d s child sib).1 ∧
      (insertFix d s child sib).1.height =
        max n sib.height + 1 + (if (insertFix d s child sib).2 then 1 else 0) ∧
      ((insertFix d s child sib).2 = true → s.bal = 0) := by
  obtain ⟨hb, hlo, hhi, hsib⟩ := hs
  simp only at hb hlo hhi hsib
  rw [insertFix]
  split
  · rename_i h0
    have hn : n = sib.height := by cases d <;> simp at hb <;> omega
    refine ⟨?_, ?_, fun _ => h0⟩
    · simp only [avlBalanced_join, Cell.bal_setBal_sign, hh, hn]
      refine ⟨by simp, d.sign_bounds.1, d.sign_bounds.2, hc, hsib⟩
    · simp only [height_join, hh, hn, if_true]
      omega
  split
  · rename_i h0 h1
    have hn : n + 1 = sib.height := by cases d <;> simp at hb h1 <;> omega
    refine ⟨?_, ?_, by simp⟩
    · simp only [avlBalanced_join, Cell.bal_setBal_zero, hh, ← hn]
      refine ⟨by simp, by decide, by decide, hc, hsib⟩
    · simp only [height_join, hh, Bool.false_eq_true, if_false]
      omega
  · -- the child was already the taller one
    rename_i h0 h1
    have hn : n = sib.height + 1 := by cases d <;> simp at hb h1 <;> omega
    clear hb h0 h1
    obtain ⟨r, a, b, rfl, hr0⟩ := hroot.resolve_left (by omega)
    clear hroot
    rw [avlBalanced_join] at hc
    obtain ⟨hrb, hrlo, hrhi, ha, hb'⟩ := hc
    simp only [height_join] at hh
    simp only [view_join]
    split
    · rename_i hr
      have hab : a.height = n ∧ b.height = sib.height := by
        cases d <;> simp at hrb hr <;> omega
      refine ⟨?_, ?_, by simp⟩
      · simp only [rotateSingle_balanced, avlBalanced_join, height_join, Cell.bal_setBal_zero, hab]
        refine ⟨?_, by decide, by decide, ha, by simp, by decide, by decide, hb', hsib⟩
        cases d <;> simp <;> omega
      · simp only [rotateSingle_height, hab, Bool.false_eq_true, if_false]
        omega
    · rename_i hr
      have hab : b.height = n ∧ a.height = sib.height := by
        cases d <;> simp at hrb hr <;> omega
      have hbne : b ≠ nil := by
        rintro rfl
        simp at hab
        omega
      obtain ⟨p, x, y, rfl⟩ := exists_join d hbne
      rw [avlBalanced_join] at hb'
      obtain ⟨hpb, hplo, hphi, hx, hy⟩ := hb'
      simp only [height_join] at hab
      simp only [view_join]
      refine ⟨?_, ?_, by simp⟩
      · simp only [rotateDouble_balanced, avlBalanced_join, height_join, Cell.bal_setBal_zero]
        refine ⟨?_, by decide, by decide, ⟨?_, ?_, ?_, ha, hx⟩, ?_, ?_, ?_, hy, hsib⟩
        · cases d <;> simp only [Side.sign_left, Side.sign_right] at hpb ⊢ <;> omega
        all_goals
          simp only [Cell.bal_setBal_ite_sign, Cell.bal_setBal_ite_neg_sign]
          cases d <;> simp only [Side.sign_left, Side.sign_right] at hpb ⊢ <;> omega
      · simp only [rotateDouble_height, Bool.false_eq_true, if_false]
        cases d <;> simp at hpb <;> omega

/-! The whole insertion. -/

theorem insertTree_eq {cmp : Option K → Option K → Int} {new : Cell K} {t : BinaryTree (Cell K)}
    {below above : List (Frame (Cell K))} {s : Frame (Cell K)}
    (h : critical (insertPath cmp new.key [] t) = some (below, s, above)) :
    insertTree cmp new t =
      (plug above (insertFix s.side s.value (plug (below.map settle) (node new nil nil)) s.sibling).1,
        (insertFix s.side s.value (plug (below.map settle) (node new nil nil)) s.sibling).2) := by
  rw [insertTree, h]

theorem insertTree_top_inorder {β : Type} {π : Cell K → β} (hπ : WordFree π) (s : Frame (Cell K))
    (below : List (Frame (Cell K))) (t : BinaryTree (Cell K)) :
    (inorder (insertFix s.side s.value (plug (below.map settle) t) s.sibling).1).map π =
      (inorder (s.plug (plug below t))).map π := by
  rw [insertFix_inorder hπ]
  show (inorder (s.plug (plug (below.map settle) t))).map π = _
  simp only [Frame.inorder_plug, List.map_append, settle_inorder hπ]

theorem insertTree_inorder {β : Type} {π : Cell K → β} (hπ : WordFree π)
    (cmp : Option K → Option K → Int) (new : Cell K) (t : BinaryTree (Cell K)) :
    (inorder (insertTree cmp new t).1).map π =
      (inorder (plug (insertPath cmp new.key [] t) (node new nil nil))).map π := by
  cases h : critical (insertPath cmp new.key [] t) with
  | none => rw [insertTree, h, critical_eq_none.mp h]; rfl
  | some bsa =>
    obtain ⟨below, s, above⟩ := bsa
    obtain ⟨e, _, _⟩ := critical_spec h
    rw [insertTree_eq h, e, plug_append, plug_cons]
    simp only [inorder_plug above, List.map_append, insertTree_top_inorder hπ]

/-- The ranks are right before the repair too. -/
theorem critical_ranked {cmp : Option K → Option K → Int} {new : Cell K} {t : BinaryTree (Cell K)}
    {below above : List (Frame (Cell K))} {s : Frame (Cell K)} (hnew : RankIs new 0) (ht : AvlRanked t)
    (h : critical (insertPath cmp new.key [] t) = some (below, s, above)) :
    AvlRanked (plug above (s.plug (plug (below.map settle) (node new nil nil)))) := by
  have hnode : AvlRanked (node new nil nil) := ⟨hnew, trivial, trivial⟩
  obtain ⟨e, _, _⟩ := critical_spec h
  have hplug : AvlRanked (plug (insertPath cmp new.key [] t) (node new nil nil)) :=
    (leftSizes_plug ..).mpr ⟨insertPath_ranked cmp new.key [] t trivial ht, hnode⟩
  rw [e, plug_append, plug_cons] at hplug
  obtain ⟨habove, hmid⟩ := (leftSizes_plug ..).mp hplug
  obtain ⟨hs, hbelow⟩ := (Frame.leftSizes_plug ..).mp hmid
  obtain ⟨hb, _⟩ := (leftSizes_plug ..).mp hbelow
  have hsize := numNodes_eq_of_inorder (settle_inorder wordFree_addr below (node new nil nil))
  refine (leftSizes_plug ..).mpr ⟨?_, (Frame.leftSizes_plug RankIs s _).mpr ⟨?_, ?_⟩⟩
  · rwa [Frame.numNodes_plug, hsize, ← Frame.numNodes_plug]
  · rwa [hsize]
  · exact (leftSizes_plug ..).mpr ⟨settle_sizesFit hb, hnode⟩

theorem insertTree_ranked {cmp : Option K → Option K → Int} {new : Cell K} {t : BinaryTree (Cell K)}
    (hnew : RankIs new 0) (ht : AvlRanked t) : AvlRanked (insertTree cmp new t).1 := by
  cases h : critical (insertPath cmp new.key [] t) with
  | none =>
    rw [insertTree, h]
    exact ⟨hnew, trivial, trivial⟩
  | some bsa =>
    obtain ⟨below, s, above⟩ := bsa
    obtain ⟨habove, hs⟩ := (leftSizes_plug ..).mp (critical_ranked hnew ht h)
    rw [insertTree_eq h]
    refine (leftSizes_plug ..).mpr ⟨?_, insertFix_ranked hs⟩
    rwa [numNodes_eq_of_inorder (insertFix_inorder wordFree_addr ..)]

/-- What the repair finds at the critical node of a balanced tree. -/
theorem critical_ready {cmp : Option K → Option K → Int} {new : Cell K} {t : BinaryTree (Cell K)}
    {below above : List (Frame (Cell K))} {s : Frame (Cell K)} (hnew : new.bal = 0) (ht : AvlBalanced t)
    (h : critical (insertPath cmp new.key [] t) = some (below, s, above)) :
    Fits Cell.bal above (max (heightUp below 0) s.sibling.height + 1) ∧
      s.Fits Cell.bal (heightUp below 0) ∧
      AvlBalanced (plug (below.map settle) (node new nil nil)) ∧
      (plug (below.map settle) (node new nil nil)).height = heightUp below 0 + 1 ∧
      (heightUp below 0 = 0 ∨
        ∃ r a b, plug (below.map settle) (node new nil nil) = join s.side r a b ∧ r.bal ≠ 0) := by
  obtain ⟨e, hz, _⟩ := critical_spec h
  have hplug := (insertPath_balanced cmp new.key [] t).mpr ht
  rw [e, plug_append, plug_cons] at hplug
  obtain ⟨habove, hmid⟩ := (balanced_plug ..).mp hplug
  obtain ⟨hs, hbelow⟩ := (Frame.balanced_plug ..).mp hmid
  obtain ⟨hb, _⟩ := (balanced_plug ..).mp hbelow
  rw [Frame.height_plug, height_plug] at habove
  rw [height_plug] at hs
  obtain ⟨hb', hup⟩ := settle_fits hz hb
  have hnode : AvlBalanced (node new nil nil) := by simp [hnew]
  refine ⟨habove, hs, (balanced_plug ..).mpr ⟨hb', hnode⟩, ?_, ?_⟩
  · rw [height_plug]
    exact hup
  · exact (settle_root below new s.side).imp (fun hnil => by rw [hnil]; rfl) id

theorem insertTree_balanced {cmp : Option K → Option K → Int} {new : Cell K} {t : BinaryTree (Cell K)}
    (hnew : new.bal = 0) (ht : AvlBalanced t) :
    AvlBalanced (insertTree cmp new t).1 ∧
      (t ≠ nil → (insertTree cmp new t).1.height =
        t.height + (if (insertTree cmp new t).2 then 1 else 0)) := by
  cases h : critical (insertPath cmp new.key [] t) with
  | none =>
    rw [insertTree, h]
    refine ⟨by simp [hnew], fun hne => ?_⟩
    exact absurd (critical_eq_none.mp h) (insertPath_ne_nil cmp new.key [] t (Or.inr hne))
  | some bsa =>
    obtain ⟨below, s, above⟩ := bsa
    obtain ⟨e, _, htop⟩ := critical_spec h
    obtain ⟨habove, hs, hchild, hch, hroot⟩ := critical_ready hnew ht h
    obtain ⟨hbal, hfix, hgrew⟩ := insertFix_balanced hs hch hchild hroot
    have hwhole : heightUp above (max (heightUp below 0) s.sibling.height + 1) = t.height := by
      have hheight := insertPath_height cmp new.key [] t
      rw [e, heightUp_append, heightUp] at hheight
      exact hheight
    rw [insertTree_eq h]
    cases hg : (insertFix s.side s.value (plug (below.map settle) (node new nil nil)) s.sibling).2 with
    | false =>
      rw [hg, if_neg (by decide)] at hfix
      refine ⟨(balanced_plug ..).mpr ⟨by rwa [hfix], hbal⟩, fun _ => ?_⟩
      rw [height_plug, hfix, if_neg (by decide)]
      exact hwhole
    | true =>
      -- only the top node is level, so nothing is above it
      rw [hg, if_pos rfl] at hfix
      obtain rfl := htop (hgrew hg)
      refine ⟨(balanced_plug ..).mpr ⟨trivial, hbal⟩, fun _ => ?_⟩
      rw [plug_nil, hfix, ← hwhole]
      rfl

end IcecastCommon.Avl
