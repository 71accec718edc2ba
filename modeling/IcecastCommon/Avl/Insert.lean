import IcecastCommon.Avl.Rotate
import IcecastCommon.Avl.TreeInsert

/- `avl_insert` on the heap does to the tree what `insertTree` says. The descent
   carries the focus down the path and leaves it at the new leaf; the second walk
   settles the balances below the critical node; the repair happens at that node,
   and the pointer above it is swung to the new top. -/
namespace IcecastCommon.Avl
open Library BinaryTree Heap

variable {K : Type}

/-- The node `avl_node_new` makes. -/
def freshCell (a : Addr) (key : Option K) : Cell K :=
  { addr := a, key := key, word := avlSetRank (avlSetBalance 0 0) 1 }

theorem freshCell_bal (a : Addr) (key : Option K) : (freshCell a key).bal = 0 := by
  show avlGetBalance (avlSetRank (avlSetBalance 0 0) 1) = 0
  decide

theorem freshCell_rank (a : Addr) (key : Option K) : RankIs (freshCell a key) 0 := by
  show rankOf (avlSetRank (avlSetBalance 0 0) 1) = (0 + 1) % 2 ^ 30
  decide

/-! The descent. -/

/-- `t` and `s` of the descent at a node with address `a` and balance `b` below `fs`. -/
def criticalPtrs (hdr : Addr) (a : Addr) (b : Int) (fs : List (Frame (Cell K))) : Ptr × Ptr :=
  if b ≠ 0 then (some (parentOf hdr fs), some a)
  else match critical fs with
    | none => (some (parentOf hdr fs), some a)
    | some (_, s, above) => (some (parentOf hdr above), some s.value.addr)

theorem criticalPtrs_eq (hdr : Addr) {f : Frame (Cell K)} {fs below above : List (Frame (Cell K))}
    {s : Frame (Cell K)} (h : critical (f :: fs) = some (below, s, above)) :
    criticalPtrs hdr f.value.addr f.value.bal fs = (some (parentOf hdr above), some s.value.addr) := by
  rw [critical] at h
  rw [criticalPtrs]
  by_cases hb : f.value.bal ≠ 0
  · rw [if_pos hb] at h ⊢
    obtain ⟨-, rfl, rfl⟩ : [] = below ∧ f = s ∧ fs = above := by simpa using h
    rfl
  · rw [if_neg hb] at h ⊢
    cases hc : critical fs with
    | none =>
      rw [hc] at h
      obtain ⟨-, rfl, rfl⟩ : [] = below ∧ f = s ∧ [] = above := by simpa using h
      cases critical_eq_none.mp hc
      rfl
    | some bsa =>
      obtain ⟨b, s', a⟩ := bsa
      rw [hc] at h
      obtain ⟨-, rfl, rfl⟩ : f :: b = below ∧ s' = s ∧ a = above := by simpa using h
      rfl

/-- One step down: a leaning child becomes the candidate. -/
theorem criticalPtrs_cons (hdr a : Addr) (b : Int) (f : Frame (Cell K)) (fs : List (Frame (Cell K))) :
    criticalPtrs hdr a b (f :: fs) =
      if b ≠ 0 then (some f.value.addr, some a)
      else criticalPtrs hdr f.value.addr f.value.bal fs := by
  rw [criticalPtrs]
  split
  · rfl
  · cases h : critical (f :: fs) with
    | none => exact absurd (critical_eq_none.mp h) (by simp)
    | some bsa =>
      obtain ⟨below, s, above⟩ := bsa
      exact (criticalPtrs_eq hdr h).symm

/-- Hanging the new node, and what the descent returns. -/
def insertLeaf (mem : Bool) (key : Option K) (h : Heap K) (ts : Ptr × Ptr) (p : Addr) (d : Side) :
    Option (Heap K × Option (Ptr × Ptr × Ptr)) :=
  match avlNodeNew mem h key (some p) with
  | (none, h) => some (h, none)
  | (some q, h) => (h.modify (some p) fun n => n.setChild d (some q)).bind fun h =>
      some (h, some (ts.1, ts.2, some q))

/-- One step of the descent: to the left with the rank raised, to the right without. -/
def descendFrame (cmp : Option K → Option K → Int) (key : Option K) (c : Cell K)
    (l r : BinaryTree (Cell K)) : Frame (Cell K) × BinaryTree (Cell K) :=
  if cmp key c.key < 1 then (⟨.left, c.addRank 1, r⟩, l) else (⟨.right, c, l⟩, r)

theorem insertPath_node (cmp : Option K → Option K → Int) (key : Option K) (fs : List (Frame (Cell K)))
    (c : Cell K) (l r : BinaryTree (Cell K)) :
    insertPath cmp key fs (node c l r) =
      insertPath cmp key ((descendFrame cmp key c l r).1 :: fs) (descendFrame cmp key c l r).2 := by
  rw [insertPath, descendFrame]
  split <;> rfl

theorem descendFrame_addr (cmp : Option K → Option K → Int) (key : Option K) (c : Cell K)
    (l r : BinaryTree (Cell K)) :
    (descendFrame cmp key c l r).1.value.addr = c.addr ∧ (descendFrame cmp key c l r).1.value.bal = c.bal := by
  rw [descendFrame]
  split <;> simp

/-- What one turn of the loop does to the heap and where it goes on. -/
theorem insertDescend_step (cmp : Option K → Option K → Int) (mem : Bool) (key : Option K) {h : Heap K}
    {hdr : Addr} {fs : List (Frame (Cell K))} {c : Cell K} {l r : BinaryTree (Cell K)}
    (F : Focus h hdr fs (node c l r)) (fuel : Nat) (t s : Ptr) :
    ∃ h₁, Focus h₁ hdr ((descendFrame cmp key c l r).1 :: fs) (descendFrame cmp key c l r).2 ∧
      h₁.next = h.next ∧
      insertDescend cmp mem key (fuel + 1) h t s (some c.addr) =
        match ptr (descendFrame cmp key c l r).2 with
        | none => insertLeaf mem key h₁ (t, s) c.addr (descendFrame cmp key c l r).1.side
        | some q => (h₁.balance (some q)).bind fun b =>
          if b ≠ 0 then insertDescend cmp mem key fuel h₁ (some c.addr) (some q) (some q)
          else insertDescend cmp mem key fuel h₁ t s (some q) := by
  have hc := F.cell (d := .left)
  by_cases hlt : cmp key c.key < 1
  · have e : descendFrame cmp key c l r = (⟨.left, c.addRank 1, r⟩, l) := by rw [descendFrame, if_pos hlt]
    rw [e]
    refine ⟨_, focus_plug.mp (F.put (b := c.addRank 1) rfl), rfl, ?_⟩
    have hput : h.setRank (some c.addr) (avlGetRank c.word + 1) =
        some (h.put c.addr ((c.addRank 1).record (ptr l) (ptr r) (some (parentOf hdr fs)))) :=
      setRank_spec hc _
    simp only [insertDescend, load_some, hc, Option.bind_eq_bind, Option.bind_some, Cell.sideRecord,
      Cell.record, if_pos hlt, rank_spec hc]
    simp only [hput, Option.bind_some]
    cases hl : ptr l with
    | none => cases mem <;> rfl
    | some q => rfl
  · have e : descendFrame cmp key c l r = (⟨.right, c, l⟩, r) := by rw [descendFrame, if_neg hlt]
    rw [e]
    refine ⟨h, focus_plug.mp F, rfl, ?_⟩
    simp only [insertDescend, load_some, hc, Option.bind_eq_bind, Option.bind_some, Cell.sideRecord,
      Cell.record, if_neg hlt]
    cases hl : ptr r with
    | none => cases mem <;> rfl
    | some q => rfl

/-- The descent takes the focus to the end of `insertPath`. -/
theorem insertDescend_spec (cmp : Option K → Option K → Int) (mem : Bool) (key : Option K) {hdr : Addr}
    {fuel : Nat} {h : Heap K} {fs : List (Frame (Cell K))} {c : Cell K} {l r : BinaryTree (Cell K)}
    (F : Focus h hdr fs (node c l r)) (hfuel : (node c l r).height ≤ fuel) :
    ∃ h' below s above, critical (insertPath cmp key fs (node c l r)) = some (below, s, above) ∧
      Focus h' hdr (insertPath cmp key fs (node c l r)) nil ∧ h'.next = h.next ∧
      insertDescend cmp mem key fuel h (criticalPtrs hdr c.addr c.bal fs).1
          (criticalPtrs hdr c.addr c.bal fs).2 (some c.addr) =
        insertLeaf mem key h' (some (parentOf hdr above), some s.value.addr)
          (parentOf hdr (insertPath cmp key fs (node c l r)))
          (holeSide (insertPath cmp key fs (node c l r))) := by
  -- on the fuel; `s` and `t` of the code are read off the path taken so far
  induction fuel generalizing h fs c l r with
  | zero => simp at hfuel
  | succ fuel ih =>
    obtain ⟨h₁, F₁, hnext₁, e₁⟩ := insertDescend_step cmp mem key F fuel
      (criticalPtrs hdr c.addr c.bal fs).1 (criticalPtrs hdr c.addr c.bal fs).2
    obtain ⟨haddr, hbal⟩ := descendFrame_addr cmp key c l r
    have hh : (descendFrame cmp key c l r).2.height ≤ fuel := by
      rw [descendFrame]
      simp only [height] at hfuel
      split <;> simp only <;> omega
    rw [insertPath_node, e₁]
    generalize hf : (descendFrame cmp key c l r).1 = f at *
    cases ht : (descendFrame cmp key c l r).2 with
    | nil =>
      rw [ht] at F₁
      cases hcrit : critical (f :: fs) with
      | none => exact absurd (critical_eq_none.mp hcrit) (by simp)
      | some bsa =>
        obtain ⟨below, s, above⟩ := bsa
        refine ⟨h₁, below, s, above, hcrit, F₁, hnext₁, ?_⟩
        have := criticalPtrs_eq hdr hcrit
        rw [haddr, hbal] at this
        rw [this, ← haddr]
        rfl
    | node c' l' r' =>
      rw [ht] at F₁ hh
      obtain ⟨h', below, s, above, hcrit, F', hnext', e'⟩ := ih F₁ hh
      refine ⟨h', below, s, above, hcrit, F', hnext'.trans hnext₁, ?_⟩
      rw [← e', criticalPtrs_cons, haddr, hbal, ptr_node]
      simp only [balance_spec (F₁.cell (d := .left)), Option.bind_some]
      split <;> rfl

/-- The new leaf. -/
theorem insertLeaf_spec {h : Heap K} {hdr : Addr} {fs : List (Frame (Cell K))} (F : Focus h hdr fs nil)
    (key : Option K) (ts : Ptr × Ptr) :
    ∃ h', insertLeaf true key h ts (parentOf hdr fs) (holeSide fs) =
        some (h', some (ts.1, ts.2, some h.next)) ∧
      Focus h' hdr fs (node (freshCell h.next key) nil nil) ∧ h'.next = h.next + 1 := by
  have hfresh : h.next ∉ hdr :: addrs (plug fs nil) := fun hm => Nat.lt_irrefl _ (F.bound _ hm)
  have hperm : (hdr :: addrs (plug fs (node (freshCell h.next key) nil nil))).Perm
      (h.next :: hdr :: addrs (plug fs nil)) := by
    refine (List.Perm.cons hdr (addrs_plug_perm fs _)).trans
      (List.Perm.trans ?_ (((addrs_plug_perm fs nil).cons hdr).cons h.next).symm)
    simp only [addrs_node, addrs_nil, List.nil_append, List.append_nil]
    exact (List.perm_append_singleton ..).cons hdr |>.trans (List.Perm.swap ..)
  have hpar : parentOf hdr fs ∈ hdr :: addrs (plug fs nil) := by
    have := (List.Perm.cons hdr (addrs_plug_perm fs (nil : BinaryTree (Cell K)))).mem_iff
      (a := parentOf hdr fs)
    rw [addrs_nil, List.append_nil] at this
    exact this.mpr (Focus.parentOf_mem hdr fs)
  have hne : parentOf hdr fs ≠ h.next := by
    intro e
    exact hfresh (e ▸ hpar)
  obtain ⟨n, hn⟩ : ∃ n, h.cell (parentOf hdr fs) = some n := by
    cases fs with
    | nil => obtain ⟨w, hw⟩ := F.ctx; exact ⟨_, hw⟩
    | cons f fs => exact ⟨_, F.ctx.1⟩
  let h₁ : Heap K := { h.put h.next ((freshCell h.next key).record none none (some (parentOf hdr fs))) with
    next := h.next + 1 }
  have hn₁ : h₁.cell (parentOf hdr fs) = some n := (put_cell_of_ne hne).trans hn
  refine ⟨h₁.put (parentOf hdr fs) (n.setChild (holeSide fs) (some h.next)), ?_, F.replace ?_ ?_ ?_ ?_ ?_, rfl⟩
  · show (h₁.modify (some (parentOf hdr fs)) _).bind _ = _
    rw [modify_eq hn₁]
    rfl
  · rw [put_cell_self, hn]
    rfl
  · intro a ha ha'
    rw [put_cell_of_ne ha']
    refine put_cell_of_ne ?_
    rintro rfl
    refine hfresh ?_
    have := (List.Perm.cons hdr (addrs_plug_perm fs (nil : BinaryTree (Cell K)))).mem_iff
      (a := h.next)
    rw [addrs_nil, List.append_nil] at this
    exact this.mpr ha
  · refine ⟨?_, trivial, trivial⟩
    show (h₁.put _ _).cell h.next = _
    rw [put_cell_of_ne hne.symm]
    exact put_cell_self ..
  · rw [hperm.nodup_iff]
    exact List.nodup_cons.mpr ⟨hfresh, F.nodup⟩
  · intro a ha
    rcases List.mem_cons.mp (hperm.mem_iff.mp ha) with rfl | ha
    · exact Nat.lt_succ_self _
    · exact Nat.lt_succ_of_lt (F.bound a ha)

/-! The second walk. -/

/-- The step lies on the side the comparison takes. -/
def Follows (cmp : Option K → Option K → Int) (key : Option K) (f : Frame (Cell K)) : Prop :=
  f.side = if cmp key f.value.key < 1 then .left else .right

theorem insertPath_follows {cmp : Option K → Option K → Int} {key : Option K}
    {fs : List (Frame (Cell K))} (t : BinaryTree (Cell K)) (hfs : ∀ f ∈ fs, Follows cmp key f) :
    ∀ f ∈ insertPath cmp key fs t, Follows cmp key f := by
  induction t generalizing fs with
  | nil => exact hfs
  | node c l r ihl ihr =>
    rw [insertPath]
    split
    · rename_i hlt
      refine ihl ?_
      intro f hf
      rcases List.mem_cons.mp hf with rfl | hf
      · simp [Follows, hlt]
      · exact hfs f hf
    · rename_i hlt
      refine ihr ?_
      intro f hf
      rcases List.mem_cons.mp hf with rfl | hf
      · simp [Follows, hlt]
      · exact hfs f hf

theorem ptr_settle (bs : List (Frame (Cell K))) (t : BinaryTree (Cell K)) :
    ptr (plug (bs.map settle) t) = ptr (plug bs t) := by
  induction bs using List.reverseRecOn with
  | nil => rfl
  | append_singleton bs f _ =>
    rw [List.map_append, plug_append, plug_append]
    simp [Frame.plug, settle]

/-- The walk settles every step between the critical node and the new one. -/
theorem insertAdjust_spec {cmp : Option K → Option K → Int} {key : Option K} {hdr : Addr} {c : Cell K}
    {bs : List (Frame (Cell K))} {gs : List (Frame (Cell K))} {h : Heap K} {fuel : Nat}
    (F : Focus h hdr gs (plug bs (node c nil nil))) (hbs : ∀ f ∈ bs, Follows cmp key f)
    (hfuel : bs.length < fuel) :
    ∃ h', insertAdjust cmp key (some c.addr) fuel h (ptr (plug bs (node c nil nil))) = some h' ∧
      Focus h' hdr gs (plug (bs.map settle) (node c nil nil)) ∧ h'.next = h.next := by
  -- from the outer end of `bs`, since the walk goes down to the new node
  induction bs using List.reverseRecOn generalizing gs h fuel with
  | nil =>
    obtain ⟨fuel, rfl⟩ : ∃ n, fuel = n + 1 := ⟨fuel - 1, by omega⟩
    refine ⟨h, ?_, F, rfl⟩
    simp [insertAdjust]
  | append_singleton bs f ih =>
    rw [List.length_append, List.length_singleton] at hfuel
    obtain ⟨fuel, rfl⟩ : ∃ n, fuel = n + 1 := ⟨fuel - 1, by omega⟩
    rw [plug_append, plug_cons, plug_nil] at F ⊢
    -- the node `f.value` is not the new one
    have hne : (some f.value.addr : Ptr) ≠ some c.addr := by
      intro he
      have F' := focus_plug.mp F
      refine F'.around_not_mem (a := f.value.addr) (by simp [aroundAddrs, around]) ?_
      rw [Option.some.inj he, (addrs_plug_perm bs _).mem_iff]
      simp
    have hf : Follows cmp key f := hbs f (by simp)
    obtain ⟨d, v, sib⟩ := f
    have hc := F.cell (c := v) (d := d) (x := plug bs (node c nil nil)) (y := sib)
    have F₁ := F.putSide (d := d) (c := v) (b := v.setBal d.sign) (x := plug bs (node c nil nil))
      (y := sib) rfl
    obtain ⟨h', e', F', hnext'⟩ := ih (focus_plug (f := settle ⟨d, v, sib⟩) |>.mp F₁)
      (fun g hg => hbs g (by simp [hg])) (by omega : bs.length < fuel)
    refine ⟨h', ?_, ?_, hnext'⟩
    · rw [← e', Frame.plug, ptr_join, insertAdjust, if_pos hne]
      simp only [Follows] at hf
      cases d with
      | left =>
        have hlt : cmp key v.key < 1 := by
          by_contra hlt
          rw [if_neg hlt] at hf
          cases hf
        have hset := setBalance_spec hc (-1)
        simp only [load_some, hc, Cell.sideRecord, Cell.record, Option.bind_eq_bind, Option.bind_some,
          if_pos hlt] at hset ⊢
        rw [hset]
        rfl
      | right =>
        have hlt : ¬ cmp key v.key < 1 := by
          intro hlt
          rw [if_pos hlt] at hf
          cases hf
        have hset := setBalance_spec hc 1
        simp only [load_some, hc, Cell.sideRecord, Cell.record, Option.bind_eq_bind, Option.bind_some,
          if_neg hlt] at hset ⊢
        rw [hset]
        rfl
    · rw [List.map_append, plug_append]
      exact focus_plug.mpr F'

/-! The repair. -/

theorem Focus.bent {h : Heap K} {hdr : Addr} {fs : List (Frame (Cell K))} {d : Side} {s r : Cell K}
    {a b c : BinaryTree (Cell K)} (F : Focus h hdr fs (join d s (join d r a b) c)) :
    Bent h d s r a b c (some r.addr) (some (parentOf hdr fs)) (some s.addr) := by
  obtain ⟨hs, hr, hc⟩ := (Rep_join ..).mp F.tree
  obtain ⟨hr, ha, hb⟩ := (Rep_join ..).mp hr
  rw [ptr_join] at hs
  exact ⟨hs, hr, ha, hb, hc, F.nodup_tree⟩

theorem Focus.kinked {h : Heap K} {hdr : Addr} {fs : List (Frame (Cell K))} {d : Side} {s r p : Cell K}
    {a x y c : BinaryTree (Cell K)} (F : Focus h hdr fs (join d s (join d r a (join d p x y)) c)) :
    Kinked h d s r p a x y c (some r.addr) (some (parentOf hdr fs)) (some s.addr) (some r.addr) := by
  obtain ⟨hs, hr, hc⟩ := (Rep_join ..).mp F.tree
  obtain ⟨hr, ha, hp⟩ := (Rep_join ..).mp hr
  obtain ⟨hp, hx, hy⟩ := (Rep_join ..).mp hp
  rw [ptr_join] at hs hr
  exact ⟨hs, hr, hp, ha, hx, hy, hc, F.nodup_tree⟩

/-- Trees with the same addresses have the same addresses in some order. -/
theorem addrs_perm_of_inorder {t u : BinaryTree (Cell K)}
    (h : (inorder u).map Cell.addr = (inorder t).map Cell.addr) : (addrs u).Perm (addrs t) := by
  rw [addrs, addrs, h]

/-- The finishing touch puts a rewritten subtree in the place of the old one. -/
theorem insertFinish_spec {h h₁ : Heap K} {hdr : Addr} {fs : List (Frame (Cell K))}
    {t t' : BinaryTree (Cell K)} (F : Focus h hdr fs t) (ht : t ≠ nil) (ht' : t' ≠ nil) {par : Ptr}
    (hrep : Rep h₁ par t') (off : AgreeOff (addrs t) h h₁) (hperm : (addrs t').Perm (addrs t)) :
    ∃ h', insertFinish h₁ (some (parentOf hdr fs)) (ptr t) (ptr t') = some h' ∧
      Focus h' hdr fs t' ∧ h'.next = h.next := by
  obtain ⟨n, hn, hhole, hother⟩ := F.parentCell ht
  have hpar : parentOf hdr fs ∉ addrs t := F.parentOf_not_mem
  have hpar' : parentOf hdr fs ∉ addrs t' := fun hm => hpar (hperm.mem_iff.mp hm)
  have hn₁ : h₁.cell (parentOf hdr fs) = some n := (off.2 _ hpar).trans hn
  let h₂ := h₁.put (parentOf hdr fs) (n.setChild (holeSide fs) (ptr t'))
  have hrep₂ : Rep h₂ par t' := by
    refine hrep.congr fun a ha => put_cell_of_ne ?_
    rintro rfl
    exact hpar' ha
  obtain ⟨h₃, e₃, hrep₃, hnext₃, hoff₃⟩ := setParent_spec (p := some (parentOf hdr fs)) hrep₂
    (hperm.nodup_iff.mpr F.nodup_tree)
  refine ⟨h₃, ?_, F.swing hn ?_ ?_ hrep₃ hperm (hnext₃.trans off.1), hnext₃.trans off.1⟩
  · obtain ⟨c, l, r, rfl⟩ := exists_join .left ht'
    simp only [insertFinish, load_some, hn₁, Option.bind_eq_bind, Option.bind_some]
    simp only [h₂] at e₃
    cases hd : holeSide fs with
    | left =>
      rw [hd] at hother e₃
      have hne : ptr t ≠ n.right := Ne.symm hother
      rw [if_neg hne, modify_eq hn₁]
      exact e₃
    | right =>
      rw [hd] at hhole e₃
      have he : ptr t = n.right := Eq.symm hhole
      rw [if_pos he, modify_eq hn₁]
      exact e₃
  · rw [hoff₃ _ hpar']
    exact put_cell_self ..
  · intro a ha hne
    rw [hoff₃ a fun hm => ha (hperm.mem_iff.mp hm), put_cell_of_ne hne, off.2 a ha]

/-- The repair at the critical node, whose child on side `d` grew from height `n`. -/
theorem insertBalance_spec {h : Heap K} {hdr : Addr} {fs : List (Frame (Cell K))} {d : Side}
    {s : Cell K} {child sib : BinaryTree (Cell K)} (F : Focus h hdr fs (join d s child sib)) {n : Nat}
    (hs : Frame.Fits Cell.bal ⟨d, s, sib⟩ n) (hh : child.height = n + 1) (hc : AvlBalanced child)
    (hroot : n = 0 ∨ ∃ r a b, child = join d r a b ∧ r.bal ≠ 0) (q : Ptr) :
    ∃ h', insertBalance h d.sign (some (parentOf hdr fs)) (some s.addr) (ptr child) q =
        some (h', (insertFix d s child sib).2) ∧
      Focus h' hdr fs (insertFix d s child sib).1 ∧ h'.next = h.next := by
  obtain ⟨hb, hlo, hhi, hsib⟩ := hs
  simp only at hb hlo hhi hsib
  have hcell := F.cell
  rw [insertBalance, insertFix]
  simp only [balance_spec hcell, Option.bind_eq_bind, Option.bind_some]
  by_cases h0 : s.bal = 0
  · rw [if_pos h0, if_pos h0, setBalance_spec hcell]
    exact ⟨_, rfl, F.putSide rfl, rfl⟩
  rw [if_neg h0, if_neg h0]
  by_cases h1 : s.bal = -d.sign
  · rw [if_pos h1, if_pos h1, setBalance_spec hcell]
    exact ⟨_, rfl, F.putSide rfl, rfl⟩
  rw [if_neg h1, if_neg h1]
  have h2 : s.bal = d.sign := by cases d <;> simp at h1 ⊢ <;> omega
  rw [if_pos h2]
  -- the child was already the taller one, so it is a node that leans to a side
  have hn : n = sib.height + 1 := by cases d <;> simp at hb h2 <;> omega
  obtain ⟨r, a, b, rfl, hr0⟩ := hroot.resolve_left (by omega)
  rw [avlBalanced_join] at hc
  obtain ⟨hrb, hrlo, hrhi, ha, hb'⟩ := hc
  simp only [height_join] at hh
  have B := F.bent
  simp only [ptr_join, balance_spec B.inner, Option.bind_some, view_join]
  by_cases hr : r.bal = d.sign
  · rw [if_pos hr, if_pos hr]
    obtain ⟨h₁, e₁, hrep₁, off₁⟩ := insertSingle_spec B
    have hperm := addrs_perm_of_inorder (t := join d s (join d r a b) sib)
      (u := rotateSingle d (s.setBal 0) (r.setBal 0) a b sib)
      (by rw [rotateSingle_inorder wordFree_addr]; cases d <;> simp)
    obtain ⟨h₂, e₂, F₂, hnext₂⟩ := insertFinish_spec F (by cases d <;> simp)
      (by cases d <;> simp [rotateSingle]) hrep₁ off₁ hperm
    refine ⟨h₂, ?_, F₂, hnext₂⟩
    have hptr : ptr (rotateSingle d (s.setBal 0) (r.setBal 0) a b sib) = some r.addr := by
      cases d <;> simp [rotateSingle]
    rw [ptr_join, hptr] at e₂
    rw [e₁, Option.bind_some]
    simp only [e₂, Option.bind_some]
  · have hr' : r.bal = -d.sign := by cases d <;> simp at hr ⊢ <;> omega
    rw [if_neg hr, if_neg hr, if_pos hr']
    have hbne : b ≠ nil := by
      rintro rfl
      cases d <;> simp at hrb hr' hh <;> omega
    obtain ⟨p, x, y, rfl⟩ := exists_join d hbne
    obtain ⟨h₁, e₁, hrep₁, off₁⟩ := insertDouble_spec F.kinked
    have hperm := addrs_perm_of_inorder (t := join d s (join d r a (join d p x y)) sib)
      (u := rotateDouble d (s.setBal (outerBal d p.bal)) (r.setBal (middleBal d p.bal)) (p.setBal 0)
        a x y sib) (by rw [rotateDouble_inorder wordFree_addr]; cases d <;> simp)
    obtain ⟨h₂, e₂, F₂, hnext₂⟩ := insertFinish_spec F (by cases d <;> simp)
      (by cases d <;> simp [rotateDouble]) hrep₁ off₁ hperm
    have hptr : ptr (rotateDouble d (s.setBal (outerBal d p.bal)) (r.setBal (middleBal d p.bal))
        (p.setBal 0) a x y sib) = some p.addr := by
      cases d <;> simp [rotateDouble]
    rw [ptr_join, hptr] at e₂
    simp only [view_join]
    refine ⟨h₂, ?_, F₂, hnext₂⟩
    rw [e₁, Option.bind_some]
    simp only [e₂, Option.bind_some]

/-! The whole call. -/

/-- The state holds the tree `t` below its header `hdr`. -/
structure Holds (ob : AvlState K) (hdr : Addr) (t : BinaryTree (Cell K)) : Prop where
  root : ob.tree.root = some hdr
  focus : Focus ob.heap hdr [] t

theorem avlTreeNew_spec (cmp : Option K → Option K → Int) :
    ∃ ob, avlTreeNew true true cmp = some ob ∧ Holds ob 0 nil ∧ ob.tree.length = 0 ∧
      ob.tree.height = 0 ∧ ob.tree.compareFun = cmp ∧ ob.freed = [] := by
  refine ⟨_, rfl, ⟨rfl, ⟨⟨avlSetRank (avlSetBalance 0 0) 1, ?_⟩, trivial, ?_, ?_⟩⟩, rfl, rfl, rfl, rfl⟩
  · exact put_cell_self Heap.empty 0 _
  · simp [addrs]
  · intro a ha
    obtain rfl : a = 0 := by simpa [addrs] using ha
    exact Nat.zero_lt_one

theorem Holds.load_root {ob : AvlState K} {hdr : Addr} {t : BinaryTree (Cell K)} (H : Holds ob hdr t) :
    ∃ w, ob.heap.load ob.tree.root =
      some { key := none, left := none, right := ptr t, parent := none, rankAndBalance := w } := by
  obtain ⟨w, hw⟩ := H.focus.ctx
  exact ⟨w, by rw [H.root]; exact hw⟩

/-- There is fuel for every path of the tree. -/
theorem Holds.height_lt {ob : AvlState K} {hdr : Addr} {t : BinaryTree (Cell K)} (H : Holds ob hdr t) :
    t.height < ob.heap.next :=
  Nat.lt_of_le_of_lt t.height_le_numNodes H.focus.size_lt

/-- The sign and the child the code computes from the comparison at a step of the path. -/
theorem follows_child {cmp : Option K → Option K → Int} {key : Option K} {f : Frame (Cell K)}
    (hf : Follows cmp key f) (x y par : Ptr) :
    (if cmp key (f.value.sideRecord f.side x y par).key < 1 then (-1 : Int) else 1) = f.side.sign ∧
      (if cmp key (f.value.sideRecord f.side x y par).key < 1
        then (f.value.sideRecord f.side x y par).left
        else (f.value.sideRecord f.side x y par).right) = x := by
  obtain ⟨d, v, sib⟩ := f
  have hkey : (v.sideRecord d x y par).key = v.key := by cases d <;> rfl
  simp only [Follows] at hf
  rw [hkey]
  split at hf <;> rename_i hlt <;> subst hf <;> simp [hlt, Cell.sideRecord, Cell.record]

/-- The descent and the second walk leave the focus at the critical node, with the steps
below it settled. -/
theorem insertReady_spec (cmp : Option K → Option K → Int) (key : Option K) {h : Heap K} {hdr : Addr} {c : Cell K}
    {l r : BinaryTree (Cell K)} (F : Focus h hdr [] (node c l r)) :
    ∃ h₁ h₂ below s above sn, critical (insertPath cmp key [] (node c l r)) = some (below, s, above) ∧
      insertDescend cmp true key h.next h (some hdr) (some c.addr) (some c.addr) =
        some (h₁, some (some (parentOf hdr above), some s.value.addr, some h.next)) ∧
      h₁.load (some s.value.addr) = some sn ∧
      (if cmp key sn.key < 1 then (-1 : Int) else 1) = s.side.sign ∧
      (if cmp key sn.key < 1 then sn.left else sn.right) =
        ptr (plug (below.map settle) (node (freshCell h.next key) nil nil)) ∧
      insertAdjust cmp key (some h.next) h₁.next h₁
        (ptr (plug (below.map settle) (node (freshCell h.next key) nil nil))) = some h₂ ∧
      Focus h₂ hdr above (s.plug (plug (below.map settle) (node (freshCell h.next key) nil nil))) := by
  have hstart : criticalPtrs hdr c.addr c.bal ([] : List (Frame (Cell K))) = (some hdr, some c.addr) := by
    unfold criticalPtrs
    split <;> rfl
  have hheight : (node c l r).height ≤ h.next := (height_le_numNodes _).trans F.size_lt.le
  obtain ⟨h₀, below, s, above, hcrit, F₀, hnext₀, e₀⟩ := insertDescend_spec cmp true key F hheight
  obtain ⟨h₁, e₁, F₁, hnext₁⟩ := insertLeaf_spec F₀ key (some (parentOf hdr above), some s.value.addr)
  rw [hnext₀] at e₁ F₁ hnext₁
  rw [hstart, e₁] at e₀
  obtain ⟨e, _, _⟩ := critical_spec hcrit
  have hfollows : ∀ f ∈ insertPath cmp key [] (node c l r), Follows cmp key f :=
    insertPath_follows (node c l r) (by simp)
  rw [e] at F₁ hfollows
  -- the focus goes up to the critical node, down the walk and up again
  have F₂ := (focus_plug_all below).mpr F₁
  have hcell := (focus_plug.mpr F₂).cell (d := s.side)
  obtain ⟨hsign, hchild⟩ := follows_child (hfollows s (by simp))
    (ptr (plug below (node (freshCell h.next key) nil nil))) (ptr s.sibling) (some (parentOf hdr above))
  have hlen : below.length < h₁.next := by
    have hsize := F₁.size_lt
    have hlen := length_le_outside (below ++ s :: above)
    rw [numNodes_plug] at hsize
    simp only [List.length_append] at hlen
    omega
  obtain ⟨h₂, e₂, F₃, _⟩ := insertAdjust_spec F₂ (fun f hf => hfollows f (by simp [hf])) hlen
  refine ⟨h₁, h₂, below, s, above, _, hcrit, e₀, hcell, hsign, ?_, ?_, focus_plug.mpr F₃⟩
  · rw [hchild, ptr_settle]
  · rw [ptr_settle]
    exact e₂

/-- `avl_insert` with a successful allocation is `insertTree`. -/
theorem avlInsert_spec {ob : AvlState K} {hdr : Addr} {t : BinaryTree (Cell K)} (H : Holds ob hdr t)
    (ht : AvlBalanced t) (key : Option K) :
    ∃ ob', avlInsert true ob key = some (0, ob') ∧
      Holds ob' hdr (insertTree ob.tree.compareFun (freshCell ob.heap.next key) t).1 ∧
      ob'.tree.length = ob.tree.length + 1 ∧ ob'.tree.compareFun = ob.tree.compareFun ∧
      ob'.freed = ob.freed ∧ ob'.tree.height = (if (insertTree ob.tree.compareFun
        (freshCell ob.heap.next key) t).2 then ob.tree.height + 1 else ob.tree.height) := by
  obtain ⟨w, hw⟩ := H.load_root
  cases t with
  | nil =>
    obtain ⟨h', e', F', _⟩ := insertLeaf_spec H.focus key (none, none)
    refine ⟨{ ob with heap := h', tree := { ob.tree with length := ob.tree.length + 1 } }, ?_,
      ⟨H.root, F'⟩, rfl, rfl, rfl, rfl⟩
    simp only [avlInsert, hw, Option.bind_eq_bind, Option.bind_some, ptr_nil]
    rw [H.root]
    simp only [insertLeaf, avlNodeNew, if_true, Option.bind_eq_some_iff] at e' ⊢
    obtain ⟨h₁, e₁, e₂⟩ := e'
    obtain rfl : h₁ = h' := by simpa using e₂
    exact ⟨h₁, e₁, rfl⟩
  | node c l r =>
    obtain ⟨h₁, h₂, below, s, above, sn, hcrit, e₁, hsn, hsign, hchild, e₂, F₂⟩ :=
      insertReady_spec ob.tree.compareFun key H.focus
    obtain ⟨_, hfits, hbal, hheight, hroot⟩ := critical_ready (freshCell_bal ob.heap.next key) ht hcrit
    obtain ⟨h₃, e₃, F₃, _⟩ := insertBalance_spec F₂ hfits hheight hbal hroot (some ob.heap.next)
    have F₄ : Focus h₃ hdr [] (plug above (insertFix s.side s.value
        (plug (below.map settle) (node (freshCell ob.heap.next key) nil nil)) s.sibling).1) := by
      rw [focus_plug_all, List.append_nil]
      exact F₃
    have htree : insertTree ob.tree.compareFun (freshCell ob.heap.next key) (node c l r) = _ :=
      insertTree_eq hcrit
    simp only [avlInsert, hw, Option.bind_eq_bind, Option.bind_some, ptr_node]
    rw [H.root, e₁]
    simp only [Option.bind_some]
    rw [hsn, Option.bind_some, hsign, hchild, e₂, Option.bind_some, e₃, Option.bind_some, htree]
    refine ⟨_, rfl, ⟨?_, F₄⟩, ?_, ?_, rfl, ?_⟩ <;> simp only <;> split <;> rfl

end IcecastCommon.Avl
