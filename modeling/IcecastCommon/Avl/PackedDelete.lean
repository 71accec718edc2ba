import IcecastCommon.Avl.Packed

/- The deletion in step with its namesake of `Fields`, as `Packed` has it of the insertion: the
   search, the swap, the rotations and the climb, each under the tree the heap holds there. -/
namespace IcecastCommon.Avl
open Library BinaryTree Heap

variable {K : Type} {allowed : Int → Bool}

/-- A rank above zero goes down by one. -/
theorem setRank_pred_lock (hall : AllowsRanks allowed) (h : Heap K) (p : Ptr) {v : BitVec 32} (hpos : 0 < v.toNat)
    (hv : v.toNat < 2 ^ 30) :
    (unpack h).setRank allowed p ((v.toNat : Int) - 1) = (h.setRank p (v - 1)).map unpack := by
  have hone : (v - 1).toNat = v.toNat - 1 := by
    rw [BitVec.toNat_sub]
    show (2 ^ 32 - 1 + v.toNat) % 2 ^ 32 = v.toNat - 1
    omega
  have hrank : (v.toNat : Int) - 1 = (v - 1).toNat := by omega
  have hroom : (v - 1).toNat < 2 ^ 30 := by omega
  exact setRank_lock hall h p hrank hroom

/-! The search and the swap. -/

/-- The search of a key that is there. -/
theorem deleteSearch_lock (hall : AllowsRanks allowed) (cmp : Option K → Option K → Int) (root : Ptr)
    (key : Option K) {hdr : Addr} {fuel : Nat} {h : Heap K} {fs : List (Frame (Cell K))} {c : Cell K}
    {l r : BinaryTree (Cell K)} (F : Focus h hdr fs (node c l r)) (hexact : LeftSizes RankExact (node c l r))
    (hfound : (deletePath cmp key fs (node c l r)).2 ≠ nil) :
    Fields.deleteSearch allowed cmp root key fuel (unpack h) (some c.addr) =
      (deleteSearch cmp root key fuel h (some c.addr)).map unpackAt := by
  induction fuel generalizing h fs c l r with
  | zero => rfl
  | succ fuel ih =>
    obtain ⟨hc, hl, hr⟩ := hexact
    have hcell := F.cell (d := .left)
    rw [deletePath] at hfound
    rw [Fields.deleteSearch, deleteSearch]
    apply bind_lock (load_lock h (some c.addr))
    intro n hn
    obtain rfl := Option.some.inj (hcell.symm.trans hn)
    show (if cmp key c.key < 0 then _ else _) = Option.map unpackAt (if cmp key c.key < 0 then _ else _)
    by_cases hlt : cmp key c.key < 0
    · rw [if_pos hlt] at hfound ⊢
      rw [if_pos hlt]
      apply bind_lock (rank_lock h (some c.addr))
      intro v hv
      obtain rfl := Option.some.inj ((rank_spec hcell).symm.trans hv)
      have hpos : 0 < (avlGetRank c.word).toNat := by
        rw [Cell.getRank_toNat, hc]
        exact Nat.succ_pos _
      apply bind_lock (setRank_pred_lock hall h (some c.addr) hpos c.rank_lt)
      intro h₁ e₁
      rw [setRank_spec hcell] at e₁
      obtain rfl := Option.some.inj e₁
      have F₁ := focus_plug (f := ⟨.left, c.subRank 1, r⟩) |>.mp (F.put (b := c.subRank 1) rfl)
      cases l with
      | nil => exact absurd rfl hfound
      | node c' l' r' => exact ih F₁ hl hfound
    rw [if_neg hlt] at hfound ⊢
    rw [if_neg hlt]
    show (if 0 < cmp key c.key then _ else _) = Option.map unpackAt (if 0 < cmp key c.key then _ else _)
    by_cases hgt : 0 < cmp key c.key
    · rw [if_pos hgt] at hfound ⊢
      rw [if_pos hgt]
      have F₁ := focus_plug (f := ⟨.right, c, l⟩) |>.mp F
      cases r with
      | nil => exact absurd rfl hfound
      | node c' l' r' => exact ih F₁ hr hfound
    · rw [if_neg hgt, if_neg hgt]
      rfl

theorem deletePredecessor_lock (h : Heap K) (fuel : Nat) (y : Ptr) :
    Fields.deletePredecessor (unpack h) fuel y = (deletePredecessor h fuel y).map id := by
  induction fuel generalizing y with
  | zero => rfl
  | succ fuel ih =>
    rw [Fields.deletePredecessor, deletePredecessor]
    apply bind_lock (load_lock h y)
    intro n _
    have hright : (unpackNode n).right = n.right := rfl
    rw [hright]
    cases n.right with
    | none => rfl
    | some r => exact ih (some r)

/-- The rank that goes down counts the predecessor. -/
theorem deleteSwap_lock (hall : AllowsRanks allowed) {h : Heap K} {hdr : Addr} {fs : List (Frame (Cell K))}
    {c : Cell K} {l r : BinaryTree (Cell K)} (F : Focus h hdr fs (node c l r)) (hc : RankExact c l.numNodes) :
    Fields.deleteSwap allowed (unpack h) (some c.addr) = (deleteSwap h (some c.addr)).map unpackAt := by
  rw [Fields.deleteSwap, deleteSwap]
  apply bind_lock (load_lock h (some c.addr))
  intro n hn
  show (if n.left ≠ none ∧ n.right ≠ none then _ else _) =
    Option.map unpackAt (if n.left ≠ none ∧ n.right ≠ none then _ else _)
  split
  · apply bind_lock (deletePredecessor_lock h h.next n.left)
    intro y _
    apply bind_lock (load_lock h y)
    intro yn _
    have S : h.rank = h.rank := rfl
    refine link_lock S (some c.addr) (setsAlike_key _) fun h₁ S₁ => ?_
    refine link_lock S₁ y (setsAlike_key _) fun h₂ S₂ => ?_
    apply bind_lock (rank_lock h₂ (some c.addr))
    intro v hv
    rw [S₂, rank_spec (F.cell (d := .left))] at hv
    obtain rfl := Option.some.inj hv
    have hpos : 0 < (avlGetRank c.word).toNat := by
      rw [Cell.getRank_toNat, hc]
      exact Nat.succ_pos _
    apply bind_lock (setRank_pred_lock hall h₂ (some c.addr) hpos c.rank_lt)
    exact fun _ _ => rfl
  · rfl

theorem deleteScoot_lock (h : Heap K) (x : AvlNode K) :
    Fields.deleteScoot (unpack h) (unpackNode x) = (deleteScoot h x).map unpackAt := by
  rw [Fields.deleteScoot, deleteScoot]
  show (if x.left ≠ none then _ else _) = Option.map unpackAt (if x.left ≠ none then _ else _)
  split
  · apply bind_lock (modify_lock h x.left fun _ => rfl)
    exact fun _ _ => rfl
  show (if x.right ≠ none then _ else _) = Option.map unpackAt (if x.right ≠ none then _ else _)
  split
  · apply bind_lock (modify_lock h x.right fun _ => rfl)
    exact fun _ _ => rfl
  · rfl

theorem deleteUnlink_lock (h : Heap K) (x : Ptr) :
    Fields.deleteUnlink (unpack h) x = (deleteUnlink h x).map unpackAt := by
  rw [Fields.deleteUnlink, deleteUnlink]
  apply bind_lock (load_lock h x)
  intro n _
  apply bind_lock (deleteScoot_lock h n)
  intro out _
  obtain ⟨h₁, q⟩ := out
  apply bind_lock (load_lock h₁ n.parent)
  intro pn _
  show (if x = pn.left then _ else _) = Option.map unpackAt (if x = pn.left then _ else _)
  split
  · apply bind_lock (modify_lock h₁ n.parent fun _ => rfl)
    exact fun _ _ => rfl
  · apply bind_lock (modify_lock h₁ n.parent fun _ => rfl)
    exact fun _ _ => rfl

/-! The rotations. -/

/-- A node is there as long as its rank can be read. -/
theorem load_of_ranks {h h' : Heap K} (S : h'.rank = h.rank) {p : Ptr} {n : AvlNode K} (e : h'.load p = some n) :
    ∃ m, h.load p = some m := by
  have hrank : h.rank p = some (avlGetRank n.rankAndBalance) := by
    rw [← S, Heap.rank, e]
    rfl
  obtain ⟨m, hm, _⟩ := Option.map_eq_some_iff.mp hrank
  exact ⟨m, hm⟩

theorem deleteRotateLeft_lock (hall : AllowsRanks allowed) {h : Heap K} {p q : Ptr} (hbend : BendAt h .right p q) :
    Fields.deleteRotateLeft allowed (unpack h) p q = (deleteRotateLeft h p q).map unpack := by
  rw [Fields.deleteRotateLeft, deleteRotateLeft]
  apply bind_lock (load_lock h p)
  intro pn _
  have S : h.rank = h.rank := rfl
  refine link_lock S q (setsAlike_parent _) fun h₁ S₁ => ?_
  apply bind_lock (load_lock h₁ q)
  intro qn hqn
  obtain ⟨m, hm⟩ := load_of_ranks S₁ hqn
  obtain ⟨u, v, hu, hv, hbend⟩ := hbend m hm
  refine swing_lock S₁ p _ q (setsAlike_right _) (setsAlike_left _) fun h₂ S₂ => ?_
  rw [← S₂] at hu hv
  have hlast := rank_add_lock (k := some) (m := some) (ψ := unpack) hall hv hu hbend fun h₃ _ => rfl
  simpa only [Option.bind_eq_bind, Option.bind_fun_some] using hlast

theorem deleteRotateRight_lock (hall : AllowsRanks allowed) {h : Heap K} {p q : Ptr} (hbend : BendAt h .left p q) :
    Fields.deleteRotateRight allowed (unpack h) p q = (deleteRotateRight h p q).map unpack := by
  rw [Fields.deleteRotateRight, deleteRotateRight]
  apply bind_lock (load_lock h p)
  intro pn _
  have S : h.rank = h.rank := rfl
  refine link_lock S q (setsAlike_parent _) fun h₁ S₁ => ?_
  apply bind_lock (load_lock h₁ q)
  intro qn hqn
  obtain ⟨m, hm⟩ := load_of_ranks S₁ hqn
  obtain ⟨u, v, hu, hv, hbend⟩ := hbend m hm
  refine swing_lock S₁ p _ q (setsAlike_left _) (setsAlike_right _) fun h₂ S₂ => ?_
  rw [← S₂] at hu hv
  have hlast := rank_sub_lock (k := some) (m := some) (ψ := unpack) hall hu hv hbend fun h₃ _ => rfl
  simpa only [Option.bind_eq_bind, Option.bind_fun_some] using hlast

theorem deleteDoubleRight_lock (hall : AllowsRanks allowed) {h : Heap K} {p q : Ptr} (hkink : KinkAt h .left p q) :
    Fields.deleteDoubleRight allowed (unpack h) p q = (deleteDoubleRight h p q).map unpackAt := by
  rw [Fields.deleteDoubleRight, deleteDoubleRight]
  apply bind_lock (load_lock h q)
  intro qn hqn
  apply bind_lock (load_lock h p)
  intro pn _
  have S : h.rank = h.rank := rfl
  refine link_lock S qn.right (setsAlike_parent _) fun h₁ S₁ => ?_
  apply bind_lock (load_lock h₁ qn.right)
  intro rn hrn
  obtain ⟨m, hm⟩ := load_of_ranks S₁ hrn
  obtain ⟨u, v, w, hu, hv, hw, hkink⟩ := hkink qn m hqn hm
  refine swing_lock S₁ q _ qn.right (setsAlike_right _) (setsAlike_left _) fun h₂ S₂ => ?_
  apply bind_lock (load_lock h₂ qn.right)
  intro rn' _
  refine swing_lock S₂ p _ qn.right (setsAlike_left _) (setsAlike_right _) fun h₃ S₃ => ?_
  rw [← S₃] at hu hv hw
  exact ranks_right_lock hall hu hv hw hkink fun _ => rfl

theorem deleteDoubleLeft_lock (hall : AllowsRanks allowed) {h : Heap K} {p q : Ptr} (hkink : KinkAt h .right p q) :
    Fields.deleteDoubleLeft allowed (unpack h) p q = (deleteDoubleLeft h p q).map unpackAt := by
  rw [Fields.deleteDoubleLeft, deleteDoubleLeft]
  apply bind_lock (load_lock h q)
  intro qn hqn
  apply bind_lock (load_lock h p)
  intro pn _
  have S : h.rank = h.rank := rfl
  refine link_lock S qn.left (setsAlike_parent _) fun h₁ S₁ => ?_
  apply bind_lock (load_lock h₁ qn.left)
  intro rn hrn
  obtain ⟨m, hm⟩ := load_of_ranks S₁ hrn
  obtain ⟨u, v, w, hu, hv, hw, hkink⟩ := hkink qn m hqn hm
  refine swing_lock S₁ q _ qn.left (setsAlike_left _) (setsAlike_right _) fun h₂ S₂ => ?_
  apply bind_lock (load_lock h₂ qn.left)
  intro rn' _
  refine swing_lock S₂ p _ qn.left (setsAlike_right _) (setsAlike_left _) fun h₃ S₃ => ?_
  rw [← S₃] at hu hv hw
  exact ranks_left_lock hall hu hv hw hkink fun _ => rfl

theorem deleteDoubleBalance_lock (h : Heap K) (d : Side) (b : Int) (p q : Ptr) :
    Fields.deleteDoubleBalance (unpack h) d.sign b p q = (deleteDoubleBalance h d.sign b p q).map unpack := by
  rw [Fields.deleteDoubleBalance, deleteDoubleBalance]
  split
  · exact setBalances_lock h q p d.neg_sign_bounds (by decide)
  split
  · exact setBalances_lock h q p (by decide) d.sign_bounds
  · exact setBalances_lock h q p (by decide) (by decide)

/-- The rotations of case 3, the shortened side being `d`. -/
theorem deleteCase3Rotate_lock (hall : AllowsRanks allowed) {h : Heap K} {d : Side} {p q : Ptr}
    (hbend : BendAt h d.flip p q) (hkink : KinkAt h d.flip p q) :
    Fields.deleteCase3Rotate allowed (unpack h) p q d.sign = (deleteCase3Rotate h p q d.sign).map unpackAt := by
  -- after a single rotation two balances are stored
  have hsingle : ∀ {b c : Int} (shorter : Bool), -1 ≤ b ∧ b ≤ 1 → -1 ≤ c ∧ c ≤ 1 → ∀ h : Heap K,
      (((unpack h).setBalance q b).bind fun h => (h.setBalance p c).bind fun h => some (h, q, shorter)) =
        ((h.setBalance q b).bind fun h => (h.setBalance p c).bind fun h => some (h, q, shorter)).map unpackAt := by
    intro b c shorter hb hc h
    apply bind_lock (setBalance_lock h q hb)
    intro h₁ _
    apply bind_lock (setBalance_lock h₁ p hc)
    exact fun _ _ => rfl
  -- after a double one those two, by the balance of the new top, and its own
  have hdouble : ∀ (h : Heap K) (r : Ptr),
      (((unpack h).balance r).bind fun b => (Fields.deleteDoubleBalance (unpack h) d.sign b p q).bind fun h =>
        (h.setBalance r 0).bind fun h => some (h, r, true)) =
      ((h.balance r).bind fun b => (deleteDoubleBalance h d.sign b p q).bind fun h =>
        (h.setBalance r 0).bind fun h => some (h, r, true)).map unpackAt := by
    intro h r
    apply bind_lock (balance_lock h r)
    intro b _
    apply bind_lock (deleteDoubleBalance_lock h d b p q)
    intro h₁ _
    apply bind_lock (setBalance_lock h₁ r (by decide))
    exact fun _ _ => rfl
  rw [Fields.deleteCase3Rotate, deleteCase3Rotate]
  apply bind_lock (balance_lock h q)
  intro bq _
  apply bind_lock (balance_lock h p)
  intro bp _
  show (if bq = 0 then _ else _) = Option.map unpackAt (if bq = 0 then _ else _)
  by_cases h0 : bq = 0
  · rw [if_pos h0, if_pos h0]
    cases d with
    | left =>
      apply bind_lock (deleteRotateLeft_lock hall hbend)
      exact fun h₁ _ => hsingle false (by decide) (by decide) h₁
    | right =>
      apply bind_lock (deleteRotateRight_lock hall hbend)
      exact fun h₁ _ => hsingle false (by decide) (by decide) h₁
  rw [if_neg h0, if_neg h0]
  show (if bq = bp then _ else _) = Option.map unpackAt (if bq = bp then _ else _)
  by_cases h1 : bq = bp
  · rw [if_pos h1, if_pos h1]
    cases d with
    | left =>
      apply bind_lock (deleteRotateLeft_lock hall hbend)
      exact fun h₁ _ => hsingle true (by decide) (by decide) h₁
    | right =>
      apply bind_lock (deleteRotateRight_lock hall hbend)
      exact fun h₁ _ => hsingle true (by decide) (by decide) h₁
  · rw [if_neg h1, if_neg h1]
    cases d with
    | left =>
      apply bind_lock (deleteDoubleLeft_lock hall hkink)
      intro out _
      obtain ⟨h₁, r⟩ := out
      exact hdouble h₁ r
    | right =>
      apply bind_lock (deleteDoubleRight_lock hall hkink)
      intro out _
      obtain ⟨h₁, r⟩ := out
      exact hdouble h₁ r

/-! The climb. -/

theorem deleteCase3_lock (hall : AllowsRanks allowed) {h : Heap K} {hdr : Addr} {fs : List (Frame (Cell K))}
    {d : Side} {p : Cell K} {t sib : BinaryTree (Cell K)} (F : Focus h hdr fs (join d p t sib))
    (hexact : LeftSizes RankExact (join d p t sib)) (hsmall : (join d p t sib).numNodes < 2 ^ 30) :
    Fields.deleteCase3 allowed (unpack h) (some p.addr) d.sign =
      (deleteCase3 h (some p.addr) d.sign).map unpackAt := by
  have hrotate : Fields.deleteCase3Rotate allowed (unpack h) (some p.addr) (ptr sib) d.sign =
      (deleteCase3Rotate h (some p.addr) (ptr sib) d.sign).map unpackAt := by
    rw [← join_flip d p] at F hexact hsmall
    exact deleteCase3Rotate_lock hall (F.bendAt hexact hsmall) (F.kinkAt hexact hsmall)
  rw [Fields.deleteCase3, deleteCase3]
  apply bind_lock (load_lock h (some p.addr))
  intro pn hpn
  obtain rfl := Option.some.inj (F.cell.symm.trans hpn)
  have hq : (if d.sign = 1 then (p.sideRecord d (ptr t) (ptr sib) (some (parentOf hdr fs))).left
      else (p.sideRecord d (ptr t) (ptr sib) (some (parentOf hdr fs))).right) = ptr sib := by
    cases d <;> rfl
  rw [← hq] at hrotate
  apply bind_lock hrotate
  intro out _
  obtain ⟨h₁, q, shorter⟩ := out
  apply bind_lock (load_lock h₁ _)
  intro tn _
  show (if tn.left = some p.addr then _ else _) = Option.map unpackAt (if tn.left = some p.addr then _ else _)
  split
  · apply bind_lock (modify_lock h₁ _ fun _ => rfl)
    exact fun _ _ => rfl
  · apply bind_lock (modify_lock h₁ _ fun _ => rfl)
    exact fun _ _ => rfl

theorem deleteCases_lock (hall : AllowsRanks allowed) {h : Heap K} {hdr : Addr} {fs : List (Frame (Cell K))}
    {d : Side} {p : Cell K} {t sib : BinaryTree (Cell K)} (F : Focus h hdr fs (join d p t sib))
    (hexact : LeftSizes RankExact (join d p t sib)) (hsmall : (join d p t sib).numNodes < 2 ^ 30) :
    Fields.deleteCases allowed (unpack h) (some p.addr) d.sign =
      (deleteCases h (some p.addr) d.sign).map unpackAt := by
  have hother : -1 ≤ (if d.sign = -1 then (1 : Int) else -1) ∧ (if d.sign = -1 then (1 : Int) else -1) ≤ 1 := by
    cases d <;> decide
  rw [Fields.deleteCases, deleteCases]
  apply bind_lock (balance_lock h (some p.addr))
  intro b _
  show (if b = 0 then _ else _) = Option.map unpackAt (if b = 0 then _ else _)
  split
  · apply bind_lock (setBalance_lock h (some p.addr) hother)
    exact fun _ _ => rfl
  show (if b = d.sign then _ else _) = Option.map unpackAt (if b = d.sign then _ else _)
  split
  · apply bind_lock (setBalance_lock h (some p.addr) (by decide))
    exact fun _ _ => rfl
  · exact deleteCase3_lock hall F hexact hsmall

/-- The climb out of a hole of a small tree. -/
theorem deleteClimb_lock (hall : AllowsRanks allowed) {h : Heap K} {hdr : Addr} {fs : List (Frame (Cell K))}
    {t : BinaryTree (Cell K)} (shorter : Bool) {fuel : Nat} (F : Focus h hdr fs t)
    (hfs : Fits Cell.bal fs (t.height + (if shorter then 1 else 0))) (ht : AvlBalanced t)
    (hranked : AvlRanked (plug fs t)) (hsmall : (plug fs t).numNodes < 2 ^ 30) :
    Fields.deleteClimb allowed fuel (unpack h) (some (parentOf hdr fs)) (holeSide fs).sign shorter =
      (deleteClimb fuel h (some (parentOf hdr fs)) (holeSide fs).sign shorter).map unpack := by
  -- on the path above the hole; each step leaves a tree of the same size
  induction fs generalizing h t shorter fuel with
  | nil =>
    cases fuel with
    | zero => rfl
    | succ fuel =>
      cases shorter with
      | false => rfl
      | true =>
        obtain ⟨n, hn, _, hpar⟩ := F.header
        rw [Fields.deleteClimb, deleteClimb, if_pos rfl, if_pos rfl]
        apply bind_lock (load_lock h _)
        intro m hm
        obtain rfl := Option.some.inj (hn.symm.trans hm)
        show (if n.parent ≠ none then _ else _) = Option.map unpack (if n.parent ≠ none then _ else _)
        rw [if_neg (not_not.mpr hpar), if_neg (not_not.mpr hpar)]
        rfl
  | cons f fs ih =>
    cases fuel with
    | zero => rfl
    | succ fuel =>
      cases shorter with
      | false => rfl
      | true =>
        obtain ⟨hf, hrest⟩ := hfs
        simp only [if_true] at hf hrest
        obtain ⟨hbal, hheight⟩ := shrink_balanced hf ht
        obtain ⟨h₁, e₁, F₁, _⟩ := deleteCases_spec F hf
        rw [← hheight] at hrest
        obtain ⟨a, xn, pn, hptr, hxn, hpar, hpn, hside⟩ := F₁.hole_sign (shrink_ptr f t)
        -- the step works on a part of the tree and keeps its ranks
        rw [plug_cons] at hranked hsmall
        obtain ⟨habove, hmid⟩ := (leftSizes_plug ..).mp hranked
        have hpart : (f.plug t).numNodes < 2 ^ 30 := by
          rw [numNodes_plug] at hsmall
          omega
        have hsame := numNodes_eq_of_inorder (shrink_inorder wordFree_addr f t)
        have hranked' : AvlRanked (plug fs (shrink f t).1) := by
          apply (leftSizes_plug ..).mpr
          rw [hsame]
          exact ⟨habove, shrink_ranked hmid⟩
        have hsmall' : (plug fs (shrink f t).1).numNodes < 2 ^ 30 := by
          rw [numNodes_plug, hsame, ← numNodes_plug]
          exact hsmall
        have hcases := deleteCases_lock hall (focus_plug.mpr F) (ranked_exact hmid (leftSizes_lt hpart)) hpart
        have hnext := @ih _ _ (shrink f t).2 fuel F₁ hrest hbal hranked' hsmall'
        rw [← hpar, ← hside, ← hptr] at hnext
        show Fields.deleteClimb allowed (fuel + 1) (unpack h) (some f.value.addr) f.side.sign true =
          (deleteClimb (fuel + 1) h (some f.value.addr) f.side.sign true).map unpack
        rw [Fields.deleteClimb, deleteClimb, if_pos rfl, if_pos rfl]
        apply bind_lock (load_lock h _)
        intro m hm
        have hparent : m.parent ≠ none := by
          rw [← Option.some.inj (((focus_plug.mpr F).cell (d := f.side)).symm.trans hm), Cell.sideRecord_parent]
          exact Option.some_ne_none _
        show (if m.parent ≠ none then _ else _) = Option.map unpack (if m.parent ≠ none then _ else _)
        rw [if_pos hparent, if_pos hparent]
        apply bind_lock hcases
        intro out e
        obtain ⟨h₂, x, b⟩ := out
        obtain ⟨rfl, rfl, rfl⟩ : h₁ = h₂ ∧ ptr (shrink f t).1 = x ∧ (shrink f t).2 = b := by
          simpa using e₁.symm.trans e
        apply bind_lock (load_lock h₁ _)
        intro xn' hxn'
        rw [hptr] at hxn'
        obtain rfl := Option.some.inj (hxn.symm.trans hxn')
        apply bind_lock (load_lock h₁ xn.parent)
        intro pn' hpn'
        rw [hpar] at hpn'
        obtain rfl := Option.some.inj (hpn.symm.trans hpn')
        exact hnext

/-- A key that is there, in a tree with right ranks. -/
theorem avlDelete_lock (hall : AllowsRanks allowed) {ob : AvlState K} {hdr : Addr} {t : BinaryTree (Cell K)}
    (H : Holds ob hdr t) (ht : AvlBalanced t) (hranked : AvlRanked t) (hsmall : t.numNodes < 2 ^ 30)
    (freeKeyFun : Bool) {key : Option K} {D : Deleted K} (hD : deleteTree ob.tree.compareFun key t = some D) :
    Fields.avlDelete allowed freeKeyFun (unpackState ob) key = (avlDelete freeKeyFun ob key).map unpackCall := by
  obtain ⟨w, hw⟩ := H.load_root
  rw [Fields.avlDelete, avlDelete]
  apply bind_lock (load_lock ob.heap ob.tree.root)
  intro root hroot
  obtain rfl := Option.some.inj (hw.symm.trans hroot)
  cases t with
  | nil => rfl
  | node c₀ l₀ r₀ =>
    have hbal := (deletePath_balanced ob.tree.compareFun key [] (node c₀ l₀ r₀)).mpr ht
    have hsize := numNodes_eq_of_inorder (deletePath_inorder wordFree_addr ob.tree.compareFun key [] (node c₀ l₀ r₀))
    have hranks := deletePath_ranked ob.tree.compareFun key [] (node c₀ l₀ r₀) trivial hranked
    obtain ⟨h₁, _, hsearch⟩ := deleteSearch_spec ob.tree.compareFun key H.focus H.height_lt.le
    have hcount := deleteTree_numNodes hD
    have hfound : (deletePath ob.tree.compareFun key [] (node c₀ l₀ r₀)).2 ≠ nil := by
      intro hnil
      rw [deleteTree_none.mpr hnil] at hD
      cases hD
    have hlock := @deleteSearch_lock _ _ hall ob.tree.compareFun ob.tree.root key _ ob.heap.next _ _ _ _ _ H.focus
      (ranked_exact hranked (leftSizes_lt hsmall)) hfound
    rw [deleteTree] at hD
    generalize hp : deletePath ob.tree.compareFun key [] (node c₀ l₀ r₀) = path at *
    obtain ⟨fs, _ | ⟨c, l, r⟩⟩ := path
    · cases hD
    obtain rfl := Option.some.inj hD
    obtain ⟨e₁, F₁⟩ := hsearch
    rw [← H.root] at e₁
    obtain ⟨hfits, hchild, _⟩ := deleteNode_balanced hbal
    obtain ⟨hctx, hnode⟩ := hranks hfound
    obtain ⟨h₂, z, zl, zr, e₂, _, F₂, hz, _⟩ := deleteSwap_spec F₁
    obtain ⟨h₃, h₄, e₃, e₄, F₄, _⟩ := deleteUnlink_spec F₂ hz
    -- the node found and the tree that is left are small
    have hpart : (node c l r).numNodes < 2 ^ 30 := by
      rw [numNodes_plug] at hsize
      simp only [plug_nil] at hsize
      omega
    have hexact := ranked_exact hnode (leftSizes_lt hpart)
    have hroom : (plug (deleteNode fs c l r).1 (deleteNode fs c l r).2.1).numNodes < 2 ^ 30 := by
      rw [← numNodes_eq_of_inorder (climb_inorder wordFree_addr _ _ true)]
      exact lt_of_lt_of_le (Nat.lt_succ_self _) (hcount.symm.le.trans hsmall.le)
    have hclimb := @deleteClimb_lock _ _ hall _ _ _ _ true h₄.next F₄ hfits hchild (deleteNode_ranked hctx hnode) hroom
    apply bind_lock hlock
    intro out e
    obtain ⟨h, o⟩ := out
    obtain ⟨rfl, rfl⟩ : h₁ = h ∧ some (some c.addr) = o := by simpa using e₁.symm.trans e
    apply bind_lock (deleteSwap_lock hall F₁ hexact.1)
    intro out e
    obtain ⟨h, x⟩ := out
    obtain ⟨rfl, rfl⟩ : h₂ = h ∧ some z.addr = x := by simpa using e₂.symm.trans e
    apply bind_lock (load_lock h₂ (some z.addr))
    intro xn hxn
    obtain rfl := Option.some.inj ((F₂.cell (d := .left)).symm.trans hxn)
    apply bind_lock (deleteUnlink_lock h₂ (some z.addr))
    intro out e
    obtain ⟨h, b⟩ := out
    obtain ⟨rfl, rfl⟩ : h₃ = h ∧ (holeSide (deleteNode fs c l r).1).sign = b := by simpa using e₃.symm.trans e
    apply bind_lock (free_lock h₃ (some z.addr))
    intro h e
    obtain rfl := Option.some.inj (e₄.symm.trans e)
    apply bind_lock hclimb
    exact fun _ _ => rfl

/-! Whole runs. -/

namespace Fields

def apply (allowed : Int → Bool) (ob : State K) : Op K → Option (Int × State K)
  | .insert key => avlInsert allowed true ob key
  | .delete freeKeyFun key => avlDelete allowed freeKeyFun ob key

/-- The return codes of a sequence of calls and the state after it. -/
def run (allowed : Int → Bool) : List (Op K) → State K → Option (List Int × State K)
  | [], ob => some ([], ob)
  | op :: ops, ob => do
    let (code, ob) ← apply allowed ob op
    let (codes, ob) ← run allowed ops ob
    some (code :: codes, ob)

/-- A run on a new tree. -/
def runNew (allowed : Int → Bool) (compareFun : Option K → Option K → Int) (ops : List (Op K)) :
    Option (List Int × State K) := do
  let ob ← avlTreeNew true true compareFun
  run allowed ops ob

end Fields

/-- One call that finds its key, on a tree with room for one node more. -/
theorem apply_lock (hall : AllowsRanks allowed) {ob : AvlState K} {t : BinaryTree (Cell K)} (S : Sound ob t)
    (hranked : AvlRanked t) (hsmall : t.numNodes + 1 < 2 ^ 30) (op : Op K)
    (hfound : (stepTree ob.tree.compareFun ob.heap.next t op).1 = 0) :
    Fields.apply allowed (unpackState ob) op = (apply ob op).map unpackCall := by
  cases op with
  | insert key => exact avlInsert_lock hall S.holds hranked hsmall key
  | delete freeKeyFun key =>
    cases hD : deleteTree ob.tree.compareFun key t with
    | some D => exact avlDelete_lock hall S.holds S.balanced hranked (by omega) freeKeyFun hD
    | none => simp [stepTree, hD] at hfound

/-- After each part of the run the tree has room for one element more. -/
def StaysSmall (ops : List (Op K)) (ob : AvlState K) : Prop :=
  ∀ js, js <+: ops → ∀ codes ob' s, run js ob = some (codes, ob') → ob'.sequence = some s → s.length < 2 ^ 30 - 1

theorem run_lock (hall : AllowsRanks allowed) {ops : List (Op K)} {ob ob' : AvlState K} {t : BinaryTree (Cell K)}
    {codes : List Int} (S : Sound ob t) (hranked : AvlRanked t) (hsmall : StaysSmall ops ob)
    (hrun : run ops ob = some (codes, ob')) (hfound : ∀ c ∈ codes, c = 0) :
    Fields.run allowed ops (unpackState ob) = some (codes, unpackState ob') := by
  -- on the calls; the tree at hand is sound, has right ranks and is small
  induction ops generalizing ob t codes with
  | nil =>
    obtain ⟨rfl, rfl⟩ : [] = codes ∧ ob = ob' := by simpa [run] using hrun
    rfl
  | cons op ops ih =>
    obtain ⟨ob₁, e₁, S₁, _⟩ := apply_spec S op
    obtain ⟨codes₁, ob₂, _, e₂, _⟩ := run_spec ob₁.tree.compareFun (fun _ => True) (fun _ => True)
      (fun _ _ _ _ _ => trivial) ops S₁ rfl
    have hcons : ∀ {js : List (Op K)} {cs : List Int} {ob₃ : AvlState K}, run js ob₁ = some (cs, ob₃) →
        run (op :: js) ob = some ((stepTree ob.tree.compareFun ob.heap.next t op).1 :: cs, ob₃) := by
      intro js cs ob₃ e
      rw [run, e₁]
      simp only [Option.bind_eq_bind, Option.bind_some, e]
    obtain ⟨rfl, rfl⟩ : _ :: codes₁ = codes ∧ ob₂ = ob' := by simpa using (hcons e₂).symm.trans hrun
    have hcode : (stepTree ob.tree.compareFun ob.heap.next t op).1 = 0 := hfound _ (by simp)
    have hnow : t.numNodes < 2 ^ 30 - 1 := by
      rw [← keys_length]
      exact hsmall [] List.nil_prefix _ _ _ rfl S.holds.sequence
    have hnext : StaysSmall ops ob₁ := by
      intro js hjs cs ob₃ s e
      exact hsmall (op :: js) (List.cons_prefix_cons.mpr ⟨rfl, hjs⟩) _ _ s (hcons e)
    have hstep := apply_lock hall S hranked (by omega) op hcode
    rw [e₁, Option.map_some] at hstep
    have hrest := ih S₁ (stepTree_ranked _ _ t op hranked hcode) hnext e₂ fun c hc => hfound c (by simp [hc])
    rw [Fields.run, hstep]
    simp only [Option.bind_eq_bind, Option.bind_some, unpackCall, hrest]

/-- A new tree is the same header in both. -/
theorem avlTreeNew_lock (cmp : Option K → Option K → Int) :
    Fields.avlTreeNew true true cmp = (avlTreeNew true true cmp).map unpackState := by
  have hempty : (Fields.Heap.empty : Fields.Heap K) = unpack Heap.empty := rfl
  have hroot := avlNodeNew_lock true (Heap.empty : Heap K) none none
  rw [← hempty] at hroot
  simp only [Fields.avlTreeNew, avlTreeNew, if_true]
  rw [hroot]
  rfl

/-- Each call adds one node at most. -/
theorem run_numNodes_le {ops : List (Op K)} {ob ob' : AvlState K} {t : BinaryTree (Cell K)} {codes : List Int}
    (S : Sound ob t) (hrun : run ops ob = some (codes, ob')) :
    ∃ t', Sound ob' t' ∧ t'.numNodes ≤ t.numNodes + ops.length := by
  induction ops generalizing ob t codes with
  | nil =>
    obtain ⟨_, rfl⟩ : [] = codes ∧ ob = ob' := by simpa [run] using hrun
    exact ⟨t, S, Nat.le_refl _⟩
  | cons op ops ih =>
    obtain ⟨ob₁, e₁, S₁, _⟩ := apply_spec S op
    have hone : (stepTree ob.tree.compareFun ob.heap.next t op).2.numNodes ≤ t.numNodes + 1 := by
      cases op with
      | insert key => exact (insertTree_numNodes ..).le
      | delete freeKeyFun key =>
        rw [stepTree]
        cases hD : deleteTree ob.tree.compareFun key t with
        | some D =>
          rw [deleteTree_numNodes hD]
          simp only
          omega
        | none => exact (missTree_numNodes hD).le.trans (Nat.le_succ _)
    simp only [run, e₁, Option.bind_eq_bind, Option.bind_some] at hrun
    obtain ⟨⟨codes₁, ob₂⟩, e₂, h₂⟩ := Option.bind_eq_some_iff.mp hrun
    obtain ⟨_, rfl⟩ : _ ∧ ob₂ = ob' := by simpa using h₂
    obtain ⟨t', S', hle⟩ := ih S₁ e₂
    refine ⟨t', S', ?_⟩
    calc t'.numNodes ≤ _ + ops.length := hle
      _ ≤ t.numNodes + 1 + ops.length := Nat.add_le_add_right hone _
      _ = t.numNodes + (op :: ops).length := by rw [List.length_cons]; omega

theorem runNew_sequence_le {cmp : Option K → Option K → Int} {ops : List (Op K)} {codes : List Int} {ob : AvlState K}
    {s : List (Option K)} (hrun : runNew cmp ops = some (codes, ob)) (hs : ob.sequence = some s) :
    s.length ≤ ops.length := by
  obtain ⟨ob₀, e₀, H₀, hlen, _⟩ := avlTreeNew_spec cmp
  rw [runNew, e₀] at hrun
  obtain ⟨t, S, hle⟩ := run_numNodes_le (⟨H₀, trivial, by rw [hlen]; rfl⟩ : Sound ob₀ nil) hrun
  obtain rfl := Option.some.inj (S.holds.sequence.symm.trans hs)
  rw [keys_length]
  simpa using hle

/-- The ranks that the field of thirty bits holds. -/
def rankFits (r : Int) : Bool := decide (0 ≤ r ∧ r < 2 ^ 30)

/-- On trees that never hold `2 ^ 30 - 1` elements, a run whose deletions find their keys is the
run with two unbounded fields, its words taken apart, and no rank given to `AVL_SET_RANK` on
the way is outside `0 .. 2 ^ 30 - 1`. -/
theorem run_packed (cmp : Option K → Option K → Int) (ops : List (Op K)) {codes : List Int} {ob : AvlState K}
    (hrun : runNew cmp ops = some (codes, ob)) (hfound : ∀ c ∈ codes, c = 0)
    (hsmall : ∀ js, js <+: ops → ∀ codes ob s, runNew cmp js = some (codes, ob) → ob.sequence = some s →
      s.length < 2 ^ 30 - 1) :
    Fields.runNew (fun _ => true) cmp ops = some (codes, unpackState ob) ∧
      Fields.runNew rankFits cmp ops = some (codes, unpackState ob) := by
  obtain ⟨ob₀, e₀, H₀, hlen, _⟩ := avlTreeNew_spec cmp
  have S₀ : Sound ob₀ nil := ⟨H₀, trivial, by rw [hlen]; rfl⟩
  have hstart : ∀ js, runNew cmp js = run js ob₀ := fun js => by rw [runNew, e₀]; rfl
  have hsmall₀ : StaysSmall ops ob₀ := by
    intro js hjs codes ob s e
    exact hsmall js hjs codes ob s ((hstart js).trans e)
  have hnew : ∀ allowed, AllowsRanks allowed → Fields.runNew allowed cmp ops = some (codes, unpackState ob) := by
    intro allowed hall
    calc Fields.runNew allowed cmp ops = Fields.run allowed ops (unpackState ob₀) := by
          rw [Fields.runNew, avlTreeNew_lock, e₀]
          rfl
      _ = some (codes, unpackState ob) :=
          run_lock hall S₀ trivial hsmall₀ ((hstart ops).symm.trans hrun) hfound
  refine ⟨hnew _ fun _ _ => rfl, hnew _ ?_⟩
  intro r hr
  rw [rankFits, decide_eq_true_iff]
  omega

theorem run_packed_ints : ∃ codes ob,
    runNew compareInts [.insert (some 1), .insert (some 2), .delete false (some 1)] = some (codes, ob) ∧
      Fields.runNew (fun _ => true) compareInts
        [.insert (some 1), .insert (some 2), .delete false (some 1)] = some (codes, unpackState ob) := by
  obtain ⟨ob, e⟩ : ∃ ob, runNew compareInts [.insert (some 1), .insert (some 2),
      .delete false (some 1)] = some ([0, 0, 0], ob) := ⟨_, rfl⟩
  refine ⟨_, ob, e, (run_packed compareInts _ e (by simp) ?_).1⟩
  intro js hjs codes ob s hrun hs
  have hle := (runNew_sequence_le hrun hs).trans hjs.length_le
  simp only [List.length_cons, List.length_nil] at hle
  omega

end IcecastCommon.Avl
