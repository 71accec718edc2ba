import IcecastCommon.Avl.Runs
import IcecastCommon.Library.Calls

/- Calls that fail. An insertion whose allocation fails has already raised the rank of
   every node it left to the left, and no exit of `avl_insert` takes that back. A deletion
   of an absent key climbs back up and restores the ranks, but the exit to the right
   raises the rank of the last node, which the search had not lowered. -/
namespace IcecastCommon.Avl
open Library BinaryTree Heap

variable {K : Type}

/-- One call, with the outcome of its allocation. -/
inductive Call (K : Type) where
  | insert (mem : Bool) (key : Option K)
  | delete (freeKeyFun : Bool) (key : Option K)

def callStep : Call K → AvlState K → Option (Int × AvlState K)
  | .insert mem key, ob => avlInsert mem ob key
  | .delete freeKeyFun key, ob => avlDelete freeKeyFun ob key

/-- The return codes and the state after a sequence of calls on a new tree. -/
def callsNew (compareFun : Option K → Option K → Int) (calls : List (Call K)) :
    Option (List Int × AvlState K) := do
  let ob ← avlTreeNew true true compareFun
  runCalls callStep calls ob

/-! Insertion without memory. -/

/-- The tree that a failed insertion leaves. -/
def raisedTree (cmp : Option K → Option K → Int) (k : Option K) : BinaryTree (Cell K) → BinaryTree (Cell K)
  | nil => nil
  | node c l r =>
    if cmp k c.key < 1 then node (c.addRank 1) (raisedTree cmp k l) r
    else node c l (raisedTree cmp k r)

/-- The descent moves right at every node. -/
def OnlyRight (cmp : Option K → Option K → Int) (k : Option K) : BinaryTree (Cell K) → Prop
  | nil => True
  | node c _ r => ¬ cmp k c.key < 1 ∧ OnlyRight cmp k r

theorem plug_insertPath (cmp : Option K → Option K → Int) (k : Option K) (fs : List (Frame (Cell K)))
    (t : BinaryTree (Cell K)) :
    plug (insertPath cmp k fs t) nil = plug fs (raisedTree cmp k t) := by
  induction t generalizing fs with
  | nil => rfl
  | node c l r ihl ihr =>
    rw [insertPath, raisedTree]
    by_cases hlt : cmp k c.key < 1
    · rw [if_pos hlt, if_pos hlt, ihl]
      rfl
    · rw [if_neg hlt, if_neg hlt, ihr]
      rfl

theorem Cell.addRank_one_ne (c : Cell K) : c.addRank 1 ≠ c := by
  intro h
  have hrank := c.rank_addRank_one
  rw [h] at hrank
  have := c.rank_lt
  omega

theorem raisedTree_eq_iff (cmp : Option K → Option K → Int) (k : Option K) (t : BinaryTree (Cell K)) :
    raisedTree cmp k t = t ↔ OnlyRight cmp k t := by
  induction t with
  | nil => exact ⟨fun _ => trivial, fun _ => rfl⟩
  | node c l r _ ihr =>
    rw [raisedTree, OnlyRight]
    by_cases hlt : cmp k c.key < 1
    · rw [if_pos hlt]
      refine ⟨fun h => ?_, fun h => absurd hlt h.1⟩
      exact absurd (node.inj h).1 c.addRank_one_ne
    · rw [if_neg hlt, ← ihr]
      refine ⟨fun h => ⟨hlt, (node.inj h).2.2⟩, fun h => ?_⟩
      rw [h.2]

/-- `avl_insert` without memory for the node. -/
theorem avlInsert_fails {ob : AvlState K} {hdr : Addr} {t : BinaryTree (Cell K)} (H : Holds ob hdr t)
    (key : Option K) :
    ∃ ob', avlInsert false ob key = some (-1, ob') ∧
      Holds ob' hdr (raisedTree ob.tree.compareFun key t) ∧ ob'.tree = ob.tree ∧
      ob'.freed = ob.freed := by
  obtain ⟨w, hw⟩ := H.load_root
  cases t with
  | nil =>
    refine ⟨ob, ?_, H, rfl, rfl⟩
    simp only [avlInsert, hw, Option.bind_eq_bind, Option.bind_some, ptr_nil]
    rfl
  | node c l r =>
    obtain ⟨h', below, s, above, _, F', _, e'⟩ :=
      insertDescend_spec ob.tree.compareFun false key H.focus H.height_lt.le
    have hptrs : criticalPtrs hdr c.addr c.bal ([] : List (Frame (Cell K))) =
        (some hdr, some c.addr) := by
      rw [criticalPtrs]
      split <;> rfl
    rw [hptrs] at e'
    refine ⟨{ ob with heap := h' }, ?_, ⟨H.root, ?_⟩, rfl, rfl⟩
    · simp only [avlInsert, hw, Option.bind_eq_bind, Option.bind_some, ptr_node]
      rw [H.root, e']
      rfl
    · have F₀ : Focus h' hdr [] (plug (insertPath ob.tree.compareFun key [] (node c l r)) nil) := by
        rw [focus_plug_all, List.append_nil]
        exact F'
      rw [plug_insertPath] at F₀
      exact F₀

/-! Deletion of an absent key. -/

/-- The tree that a failed deletion leaves. -/
def missedTree (cmp : Option K → Option K → Int) (k : Option K) : BinaryTree (Cell K) → BinaryTree (Cell K)
  | nil => nil
  | node c l r =>
    if cmp k c.key < 0 then node c (missedTree cmp k l) r
    else match r with
      | nil => node (c.addRank 1) l nil
      | node c' l' r' => node c l (missedTree cmp k (node c' l' r'))

/-- The search for an absent key ends on the left side of its last node. -/
def EndsLeft (cmp : Option K → Option K → Int) (k : Option K) : BinaryTree (Cell K) → Prop
  | nil => True
  | node c l r => if cmp k c.key < 0 then EndsLeft cmp k l else r ≠ nil ∧ EndsLeft cmp k r

theorem Cell.addRank_subRank (c : Cell K) : (c.subRank 1).addRank 1 = c := by
  obtain ⟨a, key, w⟩ := c
  have hw : avlSetRank (avlSetRank w (avlGetRank w - 1)) (avlGetRank (avlSetRank w (avlGetRank w - 1)) + 1) =
      w := by
    apply BitVec.eq_of_toNat_eq
    have := w.isLt
    have hone : (1 : BitVec 32).toNat = 1 := rfl
    rw [avlSetRank_toNat, avlSetRank_toNat, BitVec.toNat_add, avlGetRank_toNat, avlSetRank_toNat,
      BitVec.toNat_sub, avlGetRank_toNat, hone]
    omega
  exact congrArg (Cell.mk a key) hw

theorem undo_deletePath {cmp : Option K → Option K → Int} {k : Option K} {fs : List (Frame (Cell K))}
    {t : BinaryTree (Cell K)} (ht : t ≠ nil) (hmiss : (deletePath cmp k fs t).2 = nil) :
    undo (deletePath cmp k fs t).1 = plug (fs.map undoFrame) (missedTree cmp k t) := by
  induction t generalizing fs with
  | nil => exact absurd rfl ht
  | node c l r ihl ihr =>
    rw [deletePath] at hmiss ⊢
    rw [missedTree.eq_def]
    by_cases hlt : cmp k c.key < 0
    · simp only [if_pos hlt] at hmiss ⊢
      cases l with
      | nil =>
        rw [deletePath, undo, plug_cons, missedTree]
        rw [Frame.plug, c.addRank_subRank]
        rfl
      | node cl ll lr =>
        rw [ihl (by simp) hmiss, List.map_cons, plug_cons]
        rw [undoFrame, Frame.plug, c.addRank_subRank]
        rfl
    · simp only [if_neg hlt] at hmiss ⊢
      by_cases hgt : 0 < cmp k c.key
      · simp only [if_pos hgt] at hmiss ⊢
        cases r with
        | nil => rfl
        | node cr lr rr =>
          rw [ihr (by simp) hmiss, List.map_cons, plug_cons]
          rfl
      · rw [if_neg hgt] at hmiss
        exact absurd hmiss (by simp)

theorem missTree_eq {cmp : Option K → Option K → Int} {k : Option K} {t : BinaryTree (Cell K)}
    (hmiss : deleteTree cmp k t = none) : missTree cmp k t = missedTree cmp k t := by
  cases t with
  | nil => rfl
  | node c l r =>
    have hne : node c l r ≠ nil := by simp
    have hpath : (deletePath cmp k [] (node c l r)).2 = nil := deleteTree_none.mp hmiss
    exact undo_deletePath hne hpath

theorem missedTree_eq_iff (cmp : Option K → Option K → Int) (k : Option K) (t : BinaryTree (Cell K)) :
    missedTree cmp k t = t ↔ EndsLeft cmp k t := by
  induction t with
  | nil => exact ⟨fun _ => trivial, fun _ => rfl⟩
  | node c l r ihl ihr =>
    rw [missedTree.eq_def, EndsLeft]
    by_cases hlt : cmp k c.key < 0
    · simp only [if_pos hlt]
      rw [← ihl]
      refine ⟨fun h => (node.inj h).2.1, fun h => ?_⟩
      rw [h]
    · simp only [if_neg hlt]
      cases r with
      | nil =>
        refine ⟨fun h => ?_, fun h => absurd rfl h.1⟩
        exact absurd (node.inj h).1 c.addRank_one_ne
      | node cr lr rr =>
        rw [← ihr]
        refine ⟨fun h => ⟨by simp, (node.inj h).2.2⟩, fun h => ?_⟩
        exact congrArg (node c l) h.2

theorem deleteTree_absent {cmp : Option K → Option K → Int} {k : Option K} {t : BinaryTree (Cell K)}
    (h : ∀ e ∈ keys t, cmp k e ≠ 0) : deleteTree cmp k t = none := by
  cases hD : deleteTree cmp k t with
  | none => rfl
  | some D =>
    obtain ⟨xs, ys, hkeys, _, he⟩ := deleteTree_keys hD
    refine absurd he (h D.key ?_)
    rw [hkeys]
    simp

/-! Runs with failures. -/

/-- Every call goes through and keeps the invariant; one that changes the keys is a
successful `Op`. -/
theorem callStep_spec {ob : AvlState K} {t : BinaryTree (Cell K)} (S : Sound ob t) (call : Call K) :
    ∃ code ob' t', callStep call ob = some (code, ob') ∧ Sound ob' t' ∧
      ob'.tree.compareFun = ob.tree.compareFun ∧
      (keys t' = keys t ∨ ∃ op, t' = (stepTree ob.tree.compareFun ob.heap.next t op).2 ∧
        ∀ k, op = .insert k → call = .insert true k) := by
  cases call with
  | insert mem key =>
    cases mem with
    | true =>
      obtain ⟨ob', e, S', hcmp⟩ := apply_spec S (.insert key)
      refine ⟨_, ob', _, e, S', hcmp, Or.inr ⟨.insert key, rfl, ?_⟩⟩
      intro k hk
      rw [Op.insert.inj hk]
    | false =>
      obtain ⟨ob', e, H', htree, _⟩ := avlInsert_fails S.holds key
      have hplug := plug_insertPath ob.tree.compareFun key [] t
      rw [plug_nil] at hplug
      have hkeys : keys (raisedTree ob.tree.compareFun key t) = keys t := by
        rw [← hplug]
        exact insertPath_inorder wordFree_key ob.tree.compareFun key [] t
      refine ⟨-1, ob', _, e, ⟨H', ?_, ?_⟩, by rw [htree], Or.inl hkeys⟩
      · rw [← hplug]
        exact (insertPath_balanced ob.tree.compareFun key [] t).mpr S.balanced
      · rw [htree, S.length, ← keys_length, ← keys_length, hkeys]
  | delete freeKeyFun key =>
    obtain ⟨ob', e, S', hcmp⟩ := apply_spec S (.delete freeKeyFun key)
    exact ⟨_, ob', _, e, S', hcmp, Or.inr ⟨.delete freeKeyFun key, rfl, fun k hk => nomatch hk⟩⟩

theorem callsNew_sound (cmp : Option K → Option K → Int) (calls : List (Call K)) :
    ∃ codes ob t, callsNew cmp calls = some (codes, ob) ∧ Sound ob t ∧ ob.tree.compareFun = cmp := by
  obtain ⟨ob, e, H, hlen, _, hcmp, _⟩ := avlTreeNew_spec cmp
  have T : Tracks callStep (fun (_ : Unit) (_ : Call K) (_ : Int) => ())
      (fun _ ob => ∃ t, Sound ob t ∧ ob.tree.compareFun = cmp) (fun _ _ => True) (fun _ => True) := by
    intro _ call ob _ hinv
    obtain ⟨t, S, hc⟩ := hinv
    obtain ⟨code, ob', t', e', S', hc', _⟩ := callStep_spec S call
    exact ⟨code, ob', e', ⟨t', S', hc'.trans hc⟩, trivial⟩
  obtain ⟨codes, ob', hrun, ⟨t, S, hc⟩, _⟩ := T.run calls (fun _ _ => trivial) (h := ())
    ⟨nil, ⟨H, trivial, by rw [hlen]; rfl⟩, hcmp⟩
  refine ⟨codes, ob', t, ?_, S, hc⟩
  rw [callsNew, e]
  exact hrun

/-- After every run, deleting a key that compares equal to no stored one returns -1; the
tree is as it was exactly when the search ended on the left side of its last node. -/
theorem delete_absent (cmp : Option K → Option K → Int) (calls : List (Call K)) :
    ∃ codes ob t, callsNew cmp calls = some (codes, ob) ∧ Holds ob 0 t ∧
      ∀ freeKeyFun k, (∀ e ∈ keys t, cmp k e ≠ 0) →
        ∃ ob', avlDelete freeKeyFun ob k = some (-1, ob') ∧ ob'.tree = ob.tree ∧
          ob'.freed = ob.freed ∧ (Holds ob' 0 t ↔ EndsLeft cmp k t) := by
  obtain ⟨codes, ob, t, e, S, hc⟩ := callsNew_sound cmp calls
  refine ⟨codes, ob, t, e, S.holds, ?_⟩
  intro freeKeyFun k habsent
  have hD := deleteTree_absent habsent
  obtain ⟨ob', e', H', htree, hfreed⟩ := avlDelete_miss S.holds freeKeyFun (by rw [hc]; exact hD)
  have H' : Holds ob' 0 (missTree cmp k t) := hc ▸ H'
  refine ⟨ob', e', htree, hfreed, ?_⟩
  rw [← missedTree_eq_iff, ← missTree_eq hD]
  refine ⟨fun H => H'.unique H, fun h => ?_⟩
  rw [h] at H'
  exact H'

/-- Deleting 2 from the tree of 1 gives the node of 1 the rank 2. -/
theorem delete_absent_fails : TotalPreorder compareInts ∧ ∃ codes ob ob',
    callsNew compareInts [.insert true (some 1)] = some (codes, ob) ∧
      ob.sequence = some [some 1] ∧ compareInts (some 2) (some 1) ≠ 0 ∧
      avlDelete false ob (some 2) = some (-1, ob') ∧
      ob.heap.rank (some 1) = some 1 ∧ ob'.heap.rank (some 1) = some 2 := by
  refine ⟨compareInts_totalPreorder, _, _, _, rfl, ?_, ?_, rfl, ?_, ?_⟩ <;> decide

/-- After every run, an insertion without memory returns -1; the tree is as it was exactly
when the descent moved right at every node. -/
theorem insert_without_memory (cmp : Option K → Option K → Int) (calls : List (Call K)) :
    ∃ codes ob t, callsNew cmp calls = some (codes, ob) ∧ Holds ob 0 t ∧
      ∀ k, ∃ ob', avlInsert false ob k = some (-1, ob') ∧ ob'.tree = ob.tree ∧
        ob'.freed = ob.freed ∧ (Holds ob' 0 t ↔ OnlyRight cmp k t) := by
  obtain ⟨codes, ob, t, e, S, hc⟩ := callsNew_sound cmp calls
  refine ⟨codes, ob, t, e, S.holds, ?_⟩
  intro k
  obtain ⟨ob', e', H', htree, hfreed⟩ := avlInsert_fails S.holds k
  rw [hc] at H'
  refine ⟨ob', e', htree, hfreed, ?_⟩
  rw [← raisedTree_eq_iff]
  refine ⟨fun H => H'.unique H, fun h => ?_⟩
  rw [h] at H'
  exact H'

/-- Failing to insert 1 into the tree of 2 gives the node of 2 the rank 2. -/
theorem insert_without_memory_fails : ∃ codes ob ob',
    callsNew compareInts [.insert true (some 2)] = some (codes, ob) ∧
      avlInsert false ob (some 1) = some (-1, ob') ∧
      ob.heap.rank (some 1) = some 1 ∧ ob'.heap.rank (some 1) = some 2 := by
  refine ⟨_, _, _, rfl, rfl, ?_, ?_⟩ <;> decide

end IcecastCommon.Avl
