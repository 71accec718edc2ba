import IcecastCommon.Avl.Runs
import IcecastCommon.Library.Calls

/- The recorded height. An insertion adds one to it exactly where every node on its path is
   level, which is where the tree grows. A deletion never touches it, so it is one too large
   as soon as a deletion makes the tree shorter: when every node above the place taken out
   passes the shortening on, and there is more than the one node. -/
namespace IcecastCommon.Avl
open Library BinaryTree

variable {K : Type}

/-- A step of the climb gets shorter with its hole: it leans to the side of the hole, or to
the other side with a child there that is not level. -/
def Passes (f : Frame (Cell K)) : Prop :=
  f.value.bal = f.side.sign ∨
    f.value.bal = -f.side.sign ∧ ∃ q a b, view f.side.flip f.sibling = some (q, a, b) ∧ q.bal ≠ 0

/-- From the place that a deletion takes out up to the top; nothing where the key is absent. -/
def removalPath (cmp : Option K → Option K → Int) (k : Option K) (t : BinaryTree (Cell K)) :
    Option (List (Frame (Cell K))) :=
  match deletePath cmp k [] t with
  | (_, nil) => none
  | (fs, node c l r) => some (deleteNode fs c l r).1

/-- A call after which the recorded height is still right. An insertion must not grow a tree
of `2 ^ 32` levels; a deletion of a key that is there must not shorten the tree, unless it
takes out the only node. -/
def KeepsHeight (cmp : Option K → Option K → Int) (t : BinaryTree (Cell K)) : Op K → Prop
  | .insert key => t.height < 2 ^ 32 ∨ ∃ f ∈ insertPath cmp key [] t, f.value.bal ≠ 0
  | .delete _ key => t.height ≤ 1 ∨ ∀ path, removalPath cmp key t = some path → ∃ f ∈ path, ¬ Passes f

/-- The same of a state. -/
def StateKeepsHeight (op : Op K) (ob : AvlState K) : Prop :=
  ∀ t, Holds ob 0 t → KeepsHeight ob.tree.compareFun t op

/-- `tree->height` is the number of edges on the longest path down from the top node. -/
def HeightRight (ob : AvlState K) : Prop := ∃ t, Holds ob 0 t ∧ ob.tree.height.toNat = t.height - 1

/-! Insertion. -/

theorem insertFix_grew (d : Side) (s : Cell K) (child sib : BinaryTree (Cell K)) :
    (insertFix d s child sib).2 = true ↔ s.bal = 0 := by
  rw [insertFix]
  by_cases h0 : s.bal = 0
  · rw [if_pos h0]
    exact ⟨fun _ => h0, fun _ => rfl⟩
  · rw [if_neg h0]
    refine ⟨fun h => ?_, fun h => absurd h h0⟩
    -- no other branch says that the tree grew
    by_cases h1 : s.bal = -d.sign
    · rw [if_pos h1] at h
      cases h
    · rw [if_neg h1] at h
      cases hview : view d child with
      | none =>
        rw [hview] at h
        cases h
      | some rab =>
        obtain ⟨r, a, b⟩ := rab
        rw [hview] at h
        dsimp only at h
        by_cases hr : r.bal = d.sign
        · rw [if_pos hr] at h
          cases h
        · rw [if_neg hr] at h
          cases hview' : view d b with
          | none =>
            rw [hview'] at h
            cases h
          | some pxy =>
            rw [hview'] at h
            cases h

/-- The tree grows where every node on the path is level. -/
theorem insertTree_grew (cmp : Option K → Option K → Int) (new : Cell K) {t : BinaryTree (Cell K)} (ht : t ≠ nil) :
    (insertTree cmp new t).2 = true ↔ ∀ f ∈ insertPath cmp new.key [] t, f.value.bal = 0 := by
  cases h : critical (insertPath cmp new.key [] t) with
  | none => exact absurd (critical_eq_none.mp h) (insertPath_ne_nil cmp new.key [] t (Or.inr ht))
  | some bsa =>
    obtain ⟨below, s, above⟩ := bsa
    obtain ⟨e, hbelow, habove⟩ := critical_spec h
    rw [insertTree_eq h, insertFix_grew, e]
    constructor
    · intro h0 f hf
      rw [habove h0] at hf
      rcases List.mem_append.mp hf with hf | hf
      · exact hbelow f hf
      · rw [List.mem_singleton.mp hf, h0]
    · intro hall
      exact hall s (List.mem_append_right _ List.mem_cons_self)

/-! Deletion. -/

/-- One step of the climb out of a hole that has become shorter. -/
theorem shrink_shorter {f : Frame (Cell K)} {t : BinaryTree (Cell K)} (hf : f.Fits Cell.bal (t.height + 1)) :
    (shrink f t).2 = true ↔ Passes f := by
  obtain ⟨d, p, sib⟩ := f
  obtain ⟨hb, hlo, hhi, hsib⟩ := hf
  replace hsib : AvlBalanced sib := hsib
  simp only at hb hlo hhi
  have hsign : d.sign = 1 ∨ d.sign = -1 := by cases d <;> simp
  simp only [shrink, Passes]
  by_cases h0 : p.bal = 0
  · rw [if_pos h0, h0]
    refine ⟨fun h => absurd h Bool.false_ne_true, fun h => ?_⟩
    omega
  · rw [if_neg h0]
    by_cases h1 : p.bal = d.sign
    · rw [if_pos h1]
      exact ⟨fun _ => Or.inl h1, fun _ => rfl⟩
    · -- the sibling is the taller one
      have hp : p.bal = -d.sign := by omega
      have hn : sib.height = t.height + 2 := by
        cases d <;> simp at hb hp <;> omega
      have hne : sib ≠ nil := by
        rintro rfl
        simp at hn
      obtain ⟨q, a, b, rfl⟩ := exists_join d.flip hne
      rw [if_neg h1, view_join, or_iff_right h1, and_iff_right hp]
      simp only [Option.some.injEq, Prod.mk.injEq]
      have hexists : (∃ q' a' b', (q = q' ∧ a = a' ∧ b = b') ∧ q'.bal ≠ 0) ↔ q.bal ≠ 0 := by
        constructor
        · rintro ⟨_, _, _, ⟨rfl, _, _⟩, hq⟩
          exact hq
        · intro hq
          exact ⟨q, a, b, ⟨rfl, rfl, rfl⟩, hq⟩
      rw [hexists]
      by_cases hq0 : q.bal = 0
      · rw [if_pos hq0]
        exact ⟨fun h => absurd h Bool.false_ne_true, fun h => absurd hq0 h⟩
      · rw [if_neg hq0]
        by_cases hq : q.bal = p.bal
        · rw [if_pos hq]
          exact ⟨fun _ => hq0, fun _ => rfl⟩
        · -- the child between the two is there
          rw [avlBalanced_join, Side.sign_flip] at hsib
          obtain ⟨hqb, hqlo, hqhi, _, _⟩ := hsib
          have hbne : b ≠ nil := by
            rintro rfl
            cases d <;> simp at hqb hp <;> omega
          obtain ⟨r, x, y, rfl⟩ := exists_join d.flip hbne
          rw [if_neg hq, view_join]
          exact ⟨fun _ => hq0, fun _ => rfl⟩

theorem climb_unshortened (fs : List (Frame (Cell K))) (t : BinaryTree (Cell K)) : (climb fs t false).2 = false := by
  cases fs <;> rfl

/-- The whole gets shorter where every step passes it on. -/
theorem climb_shorter {fs : List (Frame (Cell K))} {t : BinaryTree (Cell K)} (hfs : Fits Cell.bal fs (t.height + 1))
    (ht : AvlBalanced t) : (climb fs t true).2 = true ↔ ∀ f ∈ fs, Passes f := by
  induction fs generalizing t with
  | nil => exact ⟨fun _ f hf => absurd hf List.not_mem_nil, fun _ => rfl⟩
  | cons f fs ih =>
    obtain ⟨hf, hrest⟩ := hfs
    obtain ⟨hbal, hh⟩ := shrink_balanced hf ht
    have hstep := shrink_shorter hf
    have hclimb : climb (f :: fs) t true = climb fs (shrink f t).1 (shrink f t).2 := by
      rw [climb, if_pos rfl]
    rw [hclimb]
    cases hshort : (shrink f t).2 with
    | false =>
      have hnot : ¬ Passes f := by
        rw [← hstep, hshort]
        decide
      rw [climb_unshortened]
      exact ⟨fun h => absurd h Bool.false_ne_true, fun h => absurd (h f List.mem_cons_self) hnot⟩
    | true =>
      have hpass : Passes f := hstep.mp hshort
      rw [hshort, if_pos rfl] at hh
      rw [← hh] at hrest
      rw [ih hrest hbal]
      constructor
      · intro h g hg
        rcases List.mem_cons.mp hg with rfl | hg
        · exact hpass
        · exact h g hg
      · exact fun h g hg => h g (List.mem_cons_of_mem f hg)

theorem deleteTree_shorter {cmp : Option K → Option K → Int} {k : Option K} {t : BinaryTree (Cell K)}
    {D : Deleted K} (h : deleteTree cmp k t = some D) (ht : AvlBalanced t) :
    ∃ path, removalPath cmp k t = some path ∧ (D.shorter = true ↔ ∀ f ∈ path, Passes f) := by
  have hbal := (deletePath_balanced cmp k [] t).mpr ht
  rw [deleteTree] at h
  rw [removalPath]
  generalize hp : deletePath cmp k [] t = path at h hbal
  obtain ⟨fs, _ | ⟨c, l, r⟩⟩ := path
  · cases h
  · obtain rfl := Option.some.inj h
    obtain ⟨hfits, hchild, _⟩ := deleteNode_balanced hbal
    exact ⟨_, rfl, climb_shorter hfits hchild⟩

theorem removalPath_none {cmp : Option K → Option K → Int} {k : Option K} {t : BinaryTree (Cell K)}
    (h : deleteTree cmp k t = none) : removalPath cmp k t = none := by
  rw [removalPath]
  have hnil := deleteTree_none.mp h
  generalize deletePath cmp k [] t = path at hnil
  obtain ⟨fs, sub⟩ := path
  cases hnil
  rfl

/-- Putting the ranks back leaves the height. -/
theorem missTree_height {cmp : Option K → Option K → Int} {k : Option K} {t : BinaryTree (Cell K)}
    (h : deleteTree cmp k t = none) : (missTree cmp k t).height = t.height := by
  have hup : ∀ (fs : List (Frame (Cell K))) (n : Nat), heightUp (fs.map undoFrame) n = heightUp fs n := by
    intro fs
    induction fs with
    | nil => exact fun _ => rfl
    | cons f fs ih =>
      intro n
      have hsibling : (undoFrame f).sibling = f.sibling := by
        rw [undoFrame]
        cases f.side <;> rfl
      rw [List.map_cons, heightUp, heightUp, hsibling, ih]
  have hundo : ∀ fs : List (Frame (Cell K)), (undo fs).height = heightUp fs 0 := by
    intro fs
    cases fs with
    | nil => rfl
    | cons f fs =>
      rw [undo, height_plug, heightUp, heightUp, hup]
      rfl
  have hheight := deletePath_height cmp k [] t
  rw [deleteTree_none.mp h] at hheight
  rw [missTree, hundo]
  exact hheight

/-! One call. -/

theorem insert_height {ob : AvlState K} {t : BinaryTree (Cell K)} (S : Sound ob t) (key : Option K)
    (hright : ob.tree.height.toNat = t.height - 1) :
    ∃ ob' t', avlInsert true ob key = some (0, ob') ∧ Sound ob' t' ∧ ob'.tree.compareFun = ob.tree.compareFun ∧
      (ob'.tree.height.toNat = t'.height - 1 ↔ KeepsHeight ob.tree.compareFun t (.insert key)) := by
  obtain ⟨ob', e, S', hcmp⟩ := apply_spec S (.insert key)
  obtain ⟨ob'', e', _, _, _, _, hheight⟩ := avlInsert_spec S.holds S.balanced key
  obtain rfl : ob'' = ob' := (Prod.mk.inj (Option.some.inj (e'.symm.trans e))).2
  refine ⟨ob'', _, e', S', hcmp, ?_⟩
  have hsmall := ob.tree.height.isLt
  show _ = (insertTree ob.tree.compareFun (freshCell ob.heap.next key) t).1.height - 1 ↔ _
  rcases eq_or_ne t nil with rfl | hne
  · -- the first node
    have hnone : insertTree ob.tree.compareFun (freshCell ob.heap.next key) nil =
        (node (freshCell ob.heap.next key) nil nil, false) := rfl
    rw [hheight, hnone, if_neg Bool.false_ne_true, hright]
    exact ⟨fun _ => Or.inl (Nat.two_pow_pos 32), fun _ => rfl⟩
  · have hgrew := insertTree_grew ob.tree.compareFun (freshCell ob.heap.next key) hne
    have hnew := (@insertTree_balanced _ ob.tree.compareFun _ _ (freshCell_bal ob.heap.next key) S.balanced).2 hne
    have hpos : t.height ≠ 0 := by
      obtain ⟨c, l, r, rfl⟩ := exists_join .left hne
      rw [height_join]
      exact Nat.succ_ne_zero _
    cases hgrow : (insertTree ob.tree.compareFun (freshCell ob.heap.next key) t).2 with
    | false =>
      rw [hgrow, if_neg Bool.false_ne_true] at hnew hheight
      rw [hheight, hright, hnew]
      refine ⟨fun _ => Or.inr ?_, fun _ => rfl⟩
      have hnot : ¬ ∀ f ∈ insertPath ob.tree.compareFun key [] t, f.value.bal = 0 := by
        intro hall
        rw [hgrew.mpr hall] at hgrow
        cases hgrow
      simpa using hnot
    | true =>
      have hlevel := hgrew.mp hgrow
      rw [hgrow, if_pos rfl] at hnew hheight
      have hkeeps : KeepsHeight ob.tree.compareFun t (.insert key) ↔ t.height < 2 ^ 32 := by
        refine or_iff_left ?_
        rintro ⟨f, hf, hbal⟩
        exact hbal (hlevel f hf)
      rw [hkeeps, hheight, hnew, BitVec.toNat_add, hright]
      have hone : (1 : BitVec 32).toNat = 1 := rfl
      omega

theorem delete_height {ob : AvlState K} {t : BinaryTree (Cell K)} (S : Sound ob t) (freeKeyFun : Bool) (key : Option K)
    (hright : ob.tree.height.toNat = t.height - 1) :
    ∃ code ob' t', avlDelete freeKeyFun ob key = some (code, ob') ∧ Sound ob' t' ∧
      ob'.tree.compareFun = ob.tree.compareFun ∧
      (ob'.tree.height.toNat = t'.height - 1 ↔ KeepsHeight ob.tree.compareFun t (.delete freeKeyFun key)) := by
  obtain ⟨ob', e, S', hcmp⟩ := apply_spec S (.delete freeKeyFun key)
  simp only [stepTree] at e S'
  cases hD : deleteTree ob.tree.compareFun key t with
  | none =>
    obtain ⟨ob'', e', _, htree, _⟩ := avlDelete_miss S.holds freeKeyFun hD
    rw [hD] at e S'
    obtain rfl : ob'' = ob' := (Prod.mk.inj (Option.some.inj (e'.symm.trans e))).2
    refine ⟨-1, ob'', _, e', S', hcmp, ?_⟩
    have hkeeps : KeepsHeight ob.tree.compareFun t (.delete freeKeyFun key) := by
      right
      intro path hpath
      rw [removalPath_none hD] at hpath
      cases hpath
    show _ = (missTree ob.tree.compareFun key t).height - 1 ↔ _
    rw [htree, missTree_height hD]
    exact ⟨fun _ => hkeeps, fun _ => hright⟩
  | some D =>
    obtain ⟨ob'', e', _, htree, _⟩ := avlDelete_spec S.holds S.balanced freeKeyFun hD
    obtain ⟨path, hpath, hshorter⟩ := deleteTree_shorter hD S.balanced
    have hheight := (deleteTree_balanced hD S.balanced).2
    rw [hD] at e S'
    obtain rfl : ob'' = ob' := (Prod.mk.inj (Option.some.inj (e'.symm.trans e))).2
    refine ⟨0, ob'', _, e', S', hcmp, ?_⟩
    have hkeeps : KeepsHeight ob.tree.compareFun t (.delete freeKeyFun key) ↔ t.height ≤ 1 ∨ ¬ D.shorter = true := by
      rw [KeepsHeight, hshorter, hpath]
      simp
    show _ = D.tree.height - 1 ↔ _
    rw [hkeeps, htree]
    show ob.tree.height.toNat = D.tree.height - 1 ↔ _
    rw [hright]
    cases hs : D.shorter with
    | false =>
      rw [hs, if_neg Bool.false_ne_true] at hheight
      rw [← hheight]
      exact ⟨fun _ => Or.inr Bool.false_ne_true, fun _ => rfl⟩
    | true =>
      rw [hs, if_pos rfl] at hheight
      simp only [not_true, or_false]
      omega

/-! Runs. -/

/-- The recorded height is right, and the state is one of a run. -/
def HeightKept (cmp : Option K → Option K → Int) (ob : AvlState K) : Prop :=
  ∃ t, Sound ob t ∧ ob.tree.compareFun = cmp ∧ ob.tree.height.toNat = t.height - 1

theorem apply_height (cmp : Option K → Option K → Int) (op : Op K) {ob : AvlState K} (h : HeightKept cmp ob) :
    ∃ code ob', apply ob op = some (code, ob') ∧ (HeightRight ob' ↔ StateKeepsHeight op ob) ∧
      (StateKeepsHeight op ob → HeightKept cmp ob') := by
  obtain ⟨t, S, hcmp, hright⟩ := h
  have hstate : StateKeepsHeight op ob ↔ KeepsHeight ob.tree.compareFun t op := by
    refine ⟨fun h => h t S.holds, fun h u H => ?_⟩
    rw [H.unique S.holds]
    exact h
  have hcall : ∃ code ob' t', apply ob op = some (code, ob') ∧ Sound ob' t' ∧
      ob'.tree.compareFun = ob.tree.compareFun ∧
      (ob'.tree.height.toNat = t'.height - 1 ↔ KeepsHeight ob.tree.compareFun t op) := by
    cases op with
    | insert key =>
      obtain ⟨ob', t', h'⟩ := insert_height S key hright
      exact ⟨0, ob', t', h'⟩
    | delete freeKeyFun key => exact delete_height S freeKeyFun key hright
  obtain ⟨code, ob', t', e, S', hcmp', hiff⟩ := hcall
  rw [hstate]
  refine ⟨code, ob', e, ?_, fun h => ⟨t', S', hcmp'.trans hcmp, hiff.mpr h⟩⟩
  rw [← hiff]
  constructor
  · rintro ⟨u, H, hu⟩
    rwa [H.unique S'.holds] at hu
  · exact fun h => ⟨t', S'.holds, h⟩

theorem run_calls (ops : List (Op K)) (ob : AvlState K) : run ops ob = runCalls (fun op ob => apply ob op) ops ob := by
  induction ops generalizing ob with
  | nil => rfl
  | cons op ops ih =>
    have hrest : run ops = runCalls (fun op (ob : AvlState K) => apply ob op) ops := funext ih
    rw [run, runCalls, hrest]

/-- The recorded height is right all along a run exactly where no insertion grows a tree of
`2 ^ 32` levels and no deletion shortens the tree, unless it takes out the only node. -/
theorem run_height (cmp : Option K → Option K → Int) (ops : List (Op K)) :
    (∀ js, js <+: ops → ∃ codes ob, runNew cmp js = some (codes, ob) ∧ HeightRight ob) ↔
      ∀ ob, avlTreeNew true true cmp = some ob → Meets (fun op ob => apply ob op) StateKeepsHeight ops ob := by
  obtain ⟨ob, e, H, hlen, hheight, hcmp, _⟩ := avlTreeNew_spec cmp
  have hinv : HeightKept cmp ob := ⟨nil, ⟨H, trivial, by rw [hlen]; rfl⟩, hcmp, by rw [hheight]; rfl⟩
  have T : Keeps (fun op ob => apply ob op) (fun (_ : Unit) (_ : Op K) (_ : Int) => ())
      (fun _ ob => HeightKept cmp ob) StateKeepsHeight := by
    intro _ op ob hok hinv
    obtain ⟨code, ob', e', _, hkept⟩ := apply_height cmp op hinv
    exact ⟨code, ob', e', hkept hok⟩
  have hbad : ∀ (_ : Unit) (op : Op K) (ob : AvlState K) (code : Int) ob', HeightKept cmp ob →
      ¬ StateKeepsHeight op ob → apply ob op = some (code, ob') → ¬ HeightRight ob' := by
    intro _ op ob code ob' hinv hok e
    obtain ⟨code₁, ob₁, e', hiff, _⟩ := apply_height cmp op hinv
    obtain rfl : ob₁ = ob' := (Prod.mk.inj (Option.some.inj (e'.symm.trans e))).2
    rwa [hiff]
  have hright : ∀ (_ : Unit) (ob : AvlState K), HeightKept cmp ob → HeightRight ob :=
    fun _ ob ⟨t, S, _, h⟩ => ⟨t, S.holds, h⟩
  have hiff := T.always_iff (P := fun _ ob => HeightRight ob) hright hbad (l := ops) (h := ()) hinv
  have hnew : ∀ js, runNew cmp js = runCalls (fun op ob => apply ob op) js ob := by
    intro js
    rw [runNew, e, ← run_calls]
    rfl
  simp only [hnew, e, Option.some.injEq, forall_eq']
  exact hiff

/-- Two nodes, and one of them taken out again: the height of one node stays 1. -/
theorem run_height_fails : ∃ codes ob,
    runNew compareInts [.insert (some 1), .insert (some 2), .delete false (some 2)] = some (codes, ob) ∧
      ob.tree.height = 1 ∧ ¬ HeightRight ob := by
  refine ⟨_, _, rfl, rfl, ?_⟩
  rintro ⟨t, H, hheight⟩
  have hkeys : some (keys t) = some [some 1] := H.sequence.symm.trans (by decide)
  have hone : t.numNodes = 1 := by
    rw [← keys_length, Option.some.inj hkeys]
    rfl
  have hlevels : t.height ≤ t.numNodes := BinaryTree.height_le_numNodes t
  have hrecorded : 1 = t.height - 1 := hheight
  omega

end IcecastCommon.Avl
