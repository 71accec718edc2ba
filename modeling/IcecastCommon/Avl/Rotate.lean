import IcecastCommon.Avl.Shape

/- The rotations of `avl.c` on the heap. All ten of them redirect links in the same
   way (`rotateLinks`): the inner child of `r` goes to `s`, and `s` becomes the
   inner child of `r`; a double rotation does this twice. What remains are the
   updates of ranks and balances, which touch two or three words. -/
namespace IcecastCommon.Avl
open Library BinaryTree Heap

variable {K : Type}

/-- The link part of a rotation: `r`, the child of `s` on side `d`, comes up. -/
def rotateLinks (d : Side) (h : Heap K) (s r : Ptr) : Option (Heap K) := do
  let rn ← h.load r
  let h ← h.modify s fun n => n.setChild d (rn.child d.flip)
  let h ← setParent h (rn.child d.flip) s
  let h ← h.modify r fun n => n.setChild d.flip s
  h.modify s fun n => { n with parent := r }

theorem rotateLinks_bind {β : Type} (d : Side) (h : Heap K) (s r : Ptr) (k : Heap K → Option β) :
    (rotateLinks d h s r).bind k =
      (h.load r).bind fun rn => (h.modify s fun n => n.setChild d (rn.child d.flip)).bind fun h =>
        (setParent h (rn.child d.flip) s).bind fun h =>
          (h.modify r fun n => n.setChild d.flip s).bind fun h =>
            (h.modify s fun n => { n with parent := r }).bind k := by
  simp only [rotateLinks, Option.bind_eq_bind, Option.bind_assoc]

theorem Cell.sideRecord_flip (c : Cell K) (d : Side) (x y par : Ptr) :
    c.sideRecord d.flip x y par = c.sideRecord d y x par := by
  cases d <;> rfl

@[simp] theorem Cell.sideRecord_word (c : Cell K) (d : Side) (x y par : Ptr) :
    (c.sideRecord d x y par).rankAndBalance = c.word := by
  cases d <;> rfl

theorem Cell.sideRecord_child_flip (c : Cell K) (d : Side) (x y par : Ptr) :
    (c.sideRecord d x y par).child d.flip = y := by
  cases d <;> rfl

theorem Cell.sideRecord_setChild (c : Cell K) (d : Side) (x y par q : Ptr) :
    (c.sideRecord d x y par).setChild d q = c.sideRecord d q y par := by
  cases d <;> rfl

theorem Cell.sideRecord_setChild_flip (c : Cell K) (d : Side) (x y par q : Ptr) :
    (c.sideRecord d x y par).setChild d.flip q = c.sideRecord d x q par := by
  cases d <;> rfl

theorem Cell.sideRecord_setParent (c : Cell K) (d : Side) (x y par q : Ptr) :
    { c.sideRecord d x y par with parent := q } = c.sideRecord d x y q := by
  cases d <;> rfl

theorem Cell.sideRecord_setRank (c : Cell K) (d : Side) (x y par : Ptr) (r : BitVec 32) :
    { c.sideRecord d x y par with rankAndBalance := avlSetRank c.word r } =
      (c.setRank r).sideRecord d x y par := by
  cases d <;> rfl

theorem Cell.sideRecord_setBal (c : Cell K) (d : Side) (x y par : Ptr) (b : Int) :
    { c.sideRecord d x y par with rankAndBalance := avlSetBalance c.word b } =
      (c.setBal b).sideRecord d x y par := by
  cases d <;> rfl

/-- What `rotateLinks` does to the two nodes and to the subtree it moves. -/
theorem rotateLinks_spec {d : Side} {h : Heap K} {s r : Cell K} {q pa pc ps pr : Ptr}
    {b : BinaryTree (Cell K)} (hs : h.cell s.addr = some (s.sideRecord d q pc ps))
    (hr : h.cell r.addr = some (r.sideRecord d pa (ptr b) pr)) {par : Ptr} (hb : Rep h par b)
    (hne : s.addr ≠ r.addr) (hsb : s.addr ∉ addrs b) (hrb : r.addr ∉ addrs b)
    (hnd : (addrs b).Nodup) :
    ∃ h', rotateLinks d h (some s.addr) (some r.addr) = some h' ∧
      h'.cell s.addr = some (s.sideRecord d (ptr b) pc (some r.addr)) ∧
      h'.cell r.addr = some (r.sideRecord d pa (some s.addr) pr) ∧
      Rep h' (some s.addr) b ∧ AgreeOff (s.addr :: r.addr :: addrs b) h h' := by
  let h₁ := h.put s.addr (s.sideRecord d (ptr b) pc ps)
  have hb₁ : Rep h₁ par b := hb.congr fun a ha => put_cell_of_ne (ne_of_mem_of_not_mem ha hsb)
  obtain ⟨h₂, e₂, hb₂, hnext₂, hoff₂⟩ := setParent_spec (p := some s.addr) hb₁ hnd
  have hs₂ : h₂.cell s.addr = some (s.sideRecord d (ptr b) pc ps) := by
    rw [hoff₂ _ hsb]
    exact put_cell_self ..
  have hr₂ : h₂.cell r.addr = some (r.sideRecord d pa (ptr b) pr) := by
    rw [hoff₂ _ hrb, put_cell_of_ne hne.symm, hr]
  let h₃ := h₂.put r.addr (r.sideRecord d pa (some s.addr) pr)
  have hs₃ : h₃.cell s.addr = some (s.sideRecord d (ptr b) pc ps) := by
    rw [put_cell_of_ne hne, hs₂]
  refine ⟨h₃.put s.addr (s.sideRecord d (ptr b) pc (some r.addr)), ?_, put_cell_self .., ?_, ?_, ?_⟩
  · simp only [rotateLinks, load_some, hr, Option.bind_eq_bind, Option.bind_some,
      Cell.sideRecord_child_flip, modify_eq hs, Cell.sideRecord_setChild]
    rw [show setParent (h.put s.addr (s.sideRecord d (ptr b) pc ps)) (ptr b) (some s.addr) = some h₂ from e₂]
    simp only [Option.bind_some, modify_eq hr₂, Cell.sideRecord_setChild_flip]
    rw [modify_eq hs₃, Cell.sideRecord_setParent]
  · rw [put_cell_of_ne hne.symm]
    exact put_cell_self ..
  · refine hb₂.congr fun a ha => ?_
    have hs' : a ≠ s.addr := ne_of_mem_of_not_mem ha hsb
    have hr' : a ≠ r.addr := ne_of_mem_of_not_mem ha hrb
    rw [put_cell_of_ne hs', put_cell_of_ne hr']
  · have off₁ : AgreeOff (s.addr :: r.addr :: addrs b) h h₁ := agreeOff_put (by simp)
    have off₂ : AgreeOff (s.addr :: r.addr :: addrs b) h₁ h₂ :=
      ⟨hnext₂, fun a ha => hoff₂ a fun hm => ha (by simp [hm])⟩
    have off₃ : AgreeOff (s.addr :: r.addr :: addrs b) h₂ h₃ := agreeOff_put (by simp)
    exact ((off₁.trans off₂).trans off₃).trans (agreeOff_put (by simp))

/-- The heap holds `s` over `r` on side `d`, with the three subtrees of a single
rotation; `ps` and `pr` are the parents recorded at `s` and `r`. -/
structure Bent (h : Heap K) (d : Side) (s r : Cell K) (a b c : BinaryTree (Cell K)) (q ps pr : Ptr) :
    Prop where
  outer : h.cell s.addr = some (s.sideRecord d q (ptr c) ps)
  inner : h.cell r.addr = some (r.sideRecord d (ptr a) (ptr b) pr)
  far : Rep h (some r.addr) a
  moved : Rep h (some r.addr) b
  near : Rep h (some s.addr) c
  nodup : (addrs (join d s (join d r a b) c)).Nodup

/-- The distinctness of addresses behind a single rotation. -/
theorem Bent.distinct {h : Heap K} {d : Side} {s r : Cell K} {a b c : BinaryTree (Cell K)} {q ps pr : Ptr}
    (B : Bent h d s r a b c q ps pr) :
    s.addr ≠ r.addr ∧ (s.addr ∉ addrs a ∧ s.addr ∉ addrs b ∧ s.addr ∉ addrs c) ∧
      (r.addr ∉ addrs a ∧ r.addr ∉ addrs b ∧ r.addr ∉ addrs c) ∧
      (∀ x ∈ addrs b, x ∉ addrs a ∧ x ∉ addrs c) ∧ (addrs b).Nodup := by
  have hnd := B.nodup
  cases d <;> simp [List.nodup_append] at hnd <;> grind

/-- After the links of a single rotation are redirected and the words of `s` and `r`
rewritten. -/
theorem Bent.rotated {h h' : Heap K} {d : Side} {s r s' r' : Cell K} {a b c : BinaryTree (Cell K)}
    {q ps pr : Ptr} (B : Bent h d s r a b c q ps pr) {h₁ : Heap K}
    (hb : Rep h₁ (some s.addr) b) (off : AgreeOff (s.addr :: r.addr :: addrs b) h h₁)
    (hs' : h'.cell s.addr = some (s'.sideRecord d (ptr b) (ptr c) (some r.addr)))
    (hr' : h'.cell r.addr = some (r'.sideRecord d (ptr a) (some s.addr) pr))
    (off' : AgreeOff [s.addr, r.addr] h₁ h') (es : s'.addr = s.addr) (er : r'.addr = r.addr) :
    Rep h' pr (join d r' a (join d s' b c)) ∧ AgreeOff (addrs (join d s (join d r a b) c)) h h' := by
  obtain ⟨hne, ⟨hsa, hsb, hsc⟩, ⟨hra, hrb, hrc⟩, hdis, _⟩ := B.distinct
  have same : ∀ x, x ≠ s.addr → x ≠ r.addr → x ∉ addrs b → h'.cell x = h.cell x := by
    intro x h1 h2 h3
    rw [off'.2 x (by simp [h1, h2]), off.2 x (by simp [h1, h2, h3])]
  refine ⟨?_, ?_⟩
  · rw [Rep_join, Rep_join, er, es, ptr_join, es]
    refine ⟨hr', B.far.congr ?_, hs', hb.congr ?_, B.near.congr ?_⟩
    · intro x hx
      exact same x (fun e => hsa (e ▸ hx)) (fun e => hra (e ▸ hx)) fun e => (hdis x e).1 hx
    · intro x hx
      refine off'.2 x ?_
      simp only [List.mem_cons, List.not_mem_nil, or_false, not_or]
      exact ⟨fun e => hsb (e ▸ hx), fun e => hrb (e ▸ hx)⟩
    · intro x hx
      exact same x (fun e => hsc (e ▸ hx)) (fun e => hrc (e ▸ hx)) fun e => (hdis x e).2 hx
  · refine ⟨off'.1.trans off.1, fun x hx => ?_⟩
    simp only [mem_addrs_join, not_or] at hx
    obtain ⟨hs, ⟨hr, _, hb'⟩, _⟩ := hx
    exact same x hs hr hb'

/-! Words. -/

section Word
variable {h : Heap K} {c : Cell K} {d : Side} {x y par : Ptr}

theorem rank_spec (hc : h.cell c.addr = some (c.sideRecord d x y par)) :
    h.rank (some c.addr) = some (avlGetRank c.word) := by
  rw [rank_eq hc, Cell.sideRecord_word]

theorem balance_spec (hc : h.cell c.addr = some (c.sideRecord d x y par)) :
    h.balance (some c.addr) = some c.bal := by
  rw [balance_eq hc, Cell.sideRecord_word, Cell.bal]

theorem setRank_spec (hc : h.cell c.addr = some (c.sideRecord d x y par)) (r : BitVec 32) :
    h.setRank (some c.addr) r = some (h.put c.addr ((c.setRank r).sideRecord d x y par)) := by
  rw [setRank_eq hc, Cell.sideRecord_word, Cell.sideRecord_setRank]

theorem setBalance_spec (hc : h.cell c.addr = some (c.sideRecord d x y par)) (b : Int) :
    h.setBalance (some c.addr) b = some (h.put c.addr ((c.setBal b).sideRecord d x y par)) := by
  rw [setBalance_eq hc, Cell.sideRecord_word, Cell.sideRecord_setBal]

end Word

/-- The rank update that goes with `rotateLinks`. -/
def rotateRanks (d : Side) (h : Heap K) (s r : Ptr) : Option (Heap K) :=
  match d with
  | .left => do h.setRank s ((← h.rank s) - (← h.rank r))
  | .right => do h.setRank r ((← h.rank r) + (← h.rank s))

theorem rotateRanks_left_bind {β : Type} (h : Heap K) (s r : Ptr) (k : Heap K → Option β) :
    (rotateRanks .left h s r).bind k =
      (h.rank s).bind fun x => (h.rank r).bind fun y => (h.setRank s (x - y)).bind k := by
  simp only [rotateRanks, Option.bind_eq_bind, Option.bind_assoc]

theorem rotateRanks_right_bind {β : Type} (h : Heap K) (s r : Ptr) (k : Heap K → Option β) :
    (rotateRanks .right h s r).bind k =
      (h.rank r).bind fun x => (h.rank s).bind fun y => (h.setRank r (x + y)).bind k := by
  simp only [rotateRanks, Option.bind_eq_bind, Option.bind_assoc]

/-- The node that goes down in a rotation, with its new rank. -/
def lowered (d : Side) (s r : Cell K) : Cell K :=
  match d with
  | .left => s.subRank (avlGetRank r.word)
  | .right => s

/-- The node that comes up in a rotation, with its new rank. -/
def raised (d : Side) (s r : Cell K) : Cell K :=
  match d with
  | .left => r
  | .right => r.addRank (avlGetRank s.word)

@[simp] theorem lowered_addr (d : Side) (s r : Cell K) : (lowered d s r).addr = s.addr := by
  cases d <;> rfl
@[simp] theorem raised_addr (d : Side) (s r : Cell K) : (raised d s r).addr = r.addr := by
  cases d <;> rfl
@[simp] theorem raised_bal (d : Side) (s r : Cell K) : (raised d s r).bal = r.bal := by
  cases d <;> simp [raised]

theorem rotateSingle_eq (d : Side) (s r : Cell K) (a b c : BinaryTree (Cell K)) :
    rotateSingle d s r a b c = join d (raised d s r) a (join d (lowered d s r) b c) := by
  cases d <;> rfl

theorem rotateDouble_eq (d : Side) (s r p : Cell K) (a x y c : BinaryTree (Cell K)) :
    rotateDouble d s r p a x y c =
      join d (raised d s (raised d.flip r p)) (join d (lowered d.flip r p) a x)
        (join d (lowered d s (raised d.flip r p)) y c) := by
  cases d <;> rfl

/-- Setting balances before the rank update or after it is the same. -/
theorem setBal_lowered (d : Side) (s r : Cell K) {b b' : Int} (hb : -1 ≤ b ∧ b ≤ 1)
    (hb' : -1 ≤ b' ∧ b' ≤ 1) : lowered d (s.setBal b) (r.setBal b') = (lowered d s r).setBal b := by
  cases d with
  | left =>
    simp only [lowered, Cell.subRank, Cell.setRank, Cell.setBal, avlGetRank_setBalance _ hb,
      avlGetRank_setBalance _ hb', avlSetBalance_setRank _ _ hb]
  | right => rfl

theorem setBal_raised (d : Side) (s r : Cell K) {b b' : Int} (hb : -1 ≤ b ∧ b ≤ 1)
    (hb' : -1 ≤ b' ∧ b' ≤ 1) : raised d (s.setBal b) (r.setBal b') = (raised d s r).setBal b' := by
  cases d with
  | left => rfl
  | right =>
    simp only [raised, Cell.addRank, Cell.setRank, Cell.setBal, avlGetRank_setBalance _ hb,
      avlGetRank_setBalance _ hb', avlSetBalance_setRank _ _ hb']

/-- `rotateRanks` rewrites the two words. -/
theorem rotateRanks_spec {h : Heap K} (d : Side) {s r : Cell K} {ds dr : Side} {xs ys ps xr yr pr : Ptr}
    (hs : h.cell s.addr = some (s.sideRecord ds xs ys ps))
    (hr : h.cell r.addr = some (r.sideRecord dr xr yr pr)) (hne : s.addr ≠ r.addr) :
    ∃ h', rotateRanks d h (some s.addr) (some r.addr) = some h' ∧
      h'.cell s.addr = some ((lowered d s r).sideRecord ds xs ys ps) ∧
      h'.cell r.addr = some ((raised d s r).sideRecord dr xr yr pr) ∧
      AgreeOff [s.addr, r.addr] h h' := by
  cases d with
  | left =>
    refine ⟨h.put s.addr ((lowered .left s r).sideRecord ds xs ys ps), ?_, put_cell_self .., ?_,
      agreeOff_put (by simp)⟩
    · simp only [rotateRanks, rank_spec hs, rank_spec hr, Option.bind_eq_bind, Option.bind_some,
        setRank_spec hs]
      rfl
    · rw [put_cell_of_ne hne.symm]
      exact hr
  | right =>
    refine ⟨h.put r.addr ((raised .right s r).sideRecord dr xr yr pr), ?_, ?_, put_cell_self ..,
      agreeOff_put (by simp)⟩
    · simp only [rotateRanks, rank_spec hs, rank_spec hr, Option.bind_eq_bind, Option.bind_some,
        setRank_spec hr]
      rfl
    · rw [put_cell_of_ne hne]
      exact hs

/-- Two balances set one after the other. -/
theorem setBalances_spec {h : Heap K} {s r : Cell K} {ds dr : Side} {xs ys ps xr yr pr : Ptr}
    (hs : h.cell s.addr = some (s.sideRecord ds xs ys ps))
    (hr : h.cell r.addr = some (r.sideRecord dr xr yr pr)) (hne : s.addr ≠ r.addr) (bs br : Int) :
    ∃ h' h'', h.setBalance (some s.addr) bs = some h' ∧ h'.setBalance (some r.addr) br = some h'' ∧
      h''.cell s.addr = some ((s.setBal bs).sideRecord ds xs ys ps) ∧
      h''.cell r.addr = some ((r.setBal br).sideRecord dr xr yr pr) ∧
      AgreeOff [s.addr, r.addr] h h'' := by
  have hr' : (h.put s.addr ((s.setBal bs).sideRecord ds xs ys ps)).cell r.addr =
      some (r.sideRecord dr xr yr pr) := by
    rw [put_cell_of_ne hne.symm]
    exact hr
  refine ⟨_, _, setBalance_spec hs bs, setBalance_spec hr' br, ?_, put_cell_self .., ?_⟩
  · rw [put_cell_of_ne hne]
    exact put_cell_self ..
  · exact (agreeOff_put (by simp)).trans (agreeOff_put (by simp))

/-! Single rotations. -/

/-- Links and ranks of a single rotation. -/
theorem Bent.turned {h : Heap K} {d : Side} {s r : Cell K} {a b c : BinaryTree (Cell K)} {q ps pr : Ptr}
    (B : Bent h d s r a b c q ps pr) :
    ∃ h₁ h₂, rotateLinks d h (some s.addr) (some r.addr) = some h₁ ∧
      rotateRanks d h₁ (some s.addr) (some r.addr) = some h₂ ∧
      h₂.cell s.addr = some ((lowered d s r).sideRecord d (ptr b) (ptr c) (some r.addr)) ∧
      h₂.cell r.addr = some ((raised d s r).sideRecord d (ptr a) (some s.addr) pr) ∧
      Rep h₂ (some s.addr) b ∧ AgreeOff (s.addr :: r.addr :: addrs b) h h₂ := by
  obtain ⟨hne, ⟨_, hsb, _⟩, ⟨_, hrb, _⟩, _, hnd⟩ := B.distinct
  obtain ⟨h₁, e₁, hs₁, hr₁, hb₁, off₁⟩ := rotateLinks_spec B.outer B.inner B.moved hne hsb hrb hnd
  obtain ⟨h₂, e₂, hs₂, hr₂, off₂⟩ := rotateRanks_spec d hs₁ hr₁ hne
  refine ⟨h₁, h₂, e₁, e₂, hs₂, hr₂, ?_, off₁.trans (off₂.mono (by simp))⟩
  refine hb₁.congr fun x hx => off₂.2 x ?_
  simp only [List.mem_cons, List.not_mem_nil, or_false, not_or]
  exact ⟨ne_of_mem_of_not_mem hx hsb, ne_of_mem_of_not_mem hx hrb⟩

/-- The tree after a single rotation whose two balances were then set. -/
theorem Bent.single {h h₂ h' : Heap K} {d : Side} {s r : Cell K} {a b c : BinaryTree (Cell K)}
    {q ps pr : Ptr} (B : Bent h d s r a b c q ps pr) (hb : Rep h₂ (some s.addr) b)
    (off : AgreeOff (s.addr :: r.addr :: addrs b) h h₂) {bs br : Int} (hbs : -1 ≤ bs ∧ bs ≤ 1)
    (hbr : -1 ≤ br ∧ br ≤ 1)
    (hs' : h'.cell s.addr =
      some (((lowered d s r).setBal bs).sideRecord d (ptr b) (ptr c) (some r.addr)))
    (hr' : h'.cell r.addr = some (((raised d s r).setBal br).sideRecord d (ptr a) (some s.addr) pr))
    (off' : AgreeOff [s.addr, r.addr] h₂ h') :
    Rep h' pr (rotateSingle d (s.setBal bs) (r.setBal br) a b c) ∧
      AgreeOff (addrs (join d s (join d r a b) c)) h h' := by
  rw [rotateSingle_eq, setBal_lowered d s r hbs hbr, setBal_raised d s r hbs hbr]
  exact B.rotated hb off hs' hr' off' (by simp) (by simp)

theorem insertSingle_eq (h : Heap K) (d : Side) (s r : Ptr) :
    insertSingle h d.sign s r =
      (rotateLinks d h s r).bind fun h => (rotateRanks d h s r).bind fun h =>
        (h.setBalance s 0).bind fun h => (h.setBalance r 0).bind fun h => some (h, r) := by
  cases d with
  | left =>
    simp only [rotateLinks_bind, rotateRanks_left_bind]
    rfl
  | right =>
    simp only [rotateLinks_bind, rotateRanks_right_bind]
    rfl

/-- The single rotation of an insertion. -/
theorem insertSingle_spec {h : Heap K} {d : Side} {s r : Cell K} {a b c : BinaryTree (Cell K)}
    {q ps pr : Ptr} (B : Bent h d s r a b c q ps pr) :
    ∃ h', insertSingle h d.sign (some s.addr) (some r.addr) = some (h', some r.addr) ∧
      Rep h' pr (rotateSingle d (s.setBal 0) (r.setBal 0) a b c) ∧
      AgreeOff (addrs (join d s (join d r a b) c)) h h' := by
  obtain ⟨h₁, h₂, e₁, e₂, hs₂, hr₂, hb₂, off₂⟩ := B.turned
  rw [← lowered_addr d s r] at hs₂
  rw [← raised_addr d s r] at hr₂
  have hne : (lowered d s r).addr ≠ (raised d s r).addr := by simpa using B.distinct.1
  obtain ⟨h₃, h₄, e₃, e₄, hs₄, hr₄, off₄⟩ := setBalances_spec hs₂ hr₂ hne 0 0
  simp only [lowered_addr, raised_addr] at hs₄ hr₄ off₄ e₃ e₄
  refine ⟨h₄, ?_, B.single hb₂ off₂ (by decide) (by decide) hs₄ hr₄ off₄⟩
  rw [insertSingle_eq, e₁, Option.bind_some, e₂, Option.bind_some, e₃, Option.bind_some, e₄]
  rfl

/-- The single rotation of a deletion: a right rotation brings up a left child. -/
def deleteRotate (d : Side) : Heap K → Ptr → Ptr → Option (Heap K) :=
  match d with
  | .left => deleteRotateRight
  | .right => deleteRotateLeft

theorem deleteRotate_eq (d : Side) (h : Heap K) (s r : Ptr) :
    deleteRotate d h s r =
      (h.load s).bind fun sn => (h.modify r fun n => { n with parent := sn.parent }).bind fun h =>
        (rotateLinks d h s r).bind fun h => rotateRanks d h s r := by
  cases d with
  | left =>
    simp only [rotateLinks_bind]
    rfl
  | right =>
    simp only [rotateLinks_bind]
    rfl

/-- `r` linked to another parent. -/
theorem Bent.lift {h : Heap K} {d : Side} {s r : Cell K} {a b c : BinaryTree (Cell K)} {q ps pr : Ptr}
    (B : Bent h d s r a b c q ps pr) (par : Ptr) :
    ∃ h', (h.modify (some r.addr) fun n => { n with parent := par }) = some h' ∧
      Bent h' d s r a b c q ps par ∧ AgreeOff [r.addr] h h' := by
  obtain ⟨hne, _, ⟨hra, hrb, hrc⟩, _, _⟩ := B.distinct
  refine ⟨h.put r.addr (r.sideRecord d (ptr a) (ptr b) par), ?_, ⟨?_, put_cell_self .., ?_, ?_, ?_, B.nodup⟩,
    agreeOff_put (by simp)⟩
  · rw [modify_eq B.inner, Cell.sideRecord_setParent]
  · rw [put_cell_of_ne hne]
    exact B.outer
  · exact B.far.congr fun x hx => put_cell_of_ne (ne_of_mem_of_not_mem hx hra)
  · exact B.moved.congr fun x hx => put_cell_of_ne (ne_of_mem_of_not_mem hx hrb)
  · exact B.near.congr fun x hx => put_cell_of_ne (ne_of_mem_of_not_mem hx hrc)

/-- The single rotation of a deletion, with the two balances set after it. -/
theorem deleteRotate_spec {h : Heap K} {d : Side} {s r : Cell K} {a b c : BinaryTree (Cell K)}
    {q ps pr : Ptr} (B : Bent h d s r a b c q ps pr) {bs br : Int} (hbs : -1 ≤ bs ∧ bs ≤ 1)
    (hbr : -1 ≤ br ∧ br ≤ 1) :
    ∃ h₁ h₂ h', deleteRotate d h (some s.addr) (some r.addr) = some h₁ ∧
      h₁.setBalance (some r.addr) br = some h₂ ∧ h₂.setBalance (some s.addr) bs = some h' ∧
      Rep h' ps (rotateSingle d (s.setBal bs) (r.setBal br) a b c) ∧
      AgreeOff (addrs (join d s (join d r a b) c)) h h' := by
  obtain ⟨h₀, e₀, B₀, off₀⟩ := B.lift ps
  obtain ⟨h₁, h₂, e₁, e₂, hs₂, hr₂, hb₂, off₂⟩ := B₀.turned
  rw [← lowered_addr d s r] at hs₂
  rw [← raised_addr d s r] at hr₂
  have hne : (raised d s r).addr ≠ (lowered d s r).addr := by simpa using B.distinct.1.symm
  obtain ⟨h₃, h₄, e₃, e₄, hr₄, hs₄, off₄⟩ := setBalances_spec hr₂ hs₂ hne br bs
  simp only [lowered_addr, raised_addr] at hs₄ hr₄ off₄ e₃ e₄
  obtain ⟨hrep, hoff⟩ := B₀.single hb₂ off₂ hbs hbr hs₄ hr₄ (off₄.mono (by simp))
  refine ⟨h₂, h₃, h₄, ?_, e₃, e₄, hrep, (off₀.mono ?_).trans hoff⟩
  · have hpar : (s.sideRecord d q (ptr c) ps).parent = ps := by cases d <;> rfl
    rw [deleteRotate_eq, load_some, B.outer, Option.bind_some, hpar, e₀, Option.bind_some, e₁,
      Option.bind_some, e₂]
  · intro x hx
    rw [List.mem_singleton.mp hx, mem_addrs_join, mem_addrs_join]
    exact Or.inr (Or.inl (Or.inl rfl))

/-! Double rotations. -/

/-- The heap holds `s` over `r` on side `d` over `p` on the other side, with the four
subtrees of a double rotation. -/
structure Kinked (h : Heap K) (d : Side) (s r p : Cell K) (a x y c : BinaryTree (Cell K))
    (q ps pr pp : Ptr) : Prop where
  outer : h.cell s.addr = some (s.sideRecord d q (ptr c) ps)
  middle : h.cell r.addr = some (r.sideRecord d (ptr a) (some p.addr) pr)
  inner : h.cell p.addr = some (p.sideRecord d (ptr x) (ptr y) pp)
  far : Rep h (some r.addr) a
  innerFar : Rep h (some p.addr) x
  innerNear : Rep h (some p.addr) y
  near : Rep h (some s.addr) c
  nodup : (addrs (join d s (join d r a (join d p x y)) c)).Nodup

namespace Kinked
variable {h : Heap K} {d : Side} {s r p : Cell K} {a x y c : BinaryTree (Cell K)} {q ps pr pp : Ptr}

/-- The three nodes are distinct and off the four subtrees. -/
theorem distinct (B : Kinked h d s r p a x y c q ps pr pp) :
    s.addr ≠ r.addr ∧ s.addr ≠ p.addr ∧ r.addr ≠ p.addr ∧
      (∀ z ∈ [s.addr, r.addr, p.addr], z ∉ addrs a ∧ z ∉ addrs x ∧ z ∉ addrs y ∧ z ∉ addrs c) ∧
      (∀ z ∈ addrs x, z ∉ addrs a ∧ z ∉ addrs y ∧ z ∉ addrs c) ∧
      (∀ z ∈ addrs y, z ∉ addrs a ∧ z ∉ addrs x ∧ z ∉ addrs c) ∧
      (addrs x).Nodup ∧ (addrs y).Nodup := by
  have hnd := B.nodup
  cases d <;> simp [List.nodup_append] at hnd ⊢ <;> grind

/-- Both link parts of a double rotation. -/
theorem turned (B : Kinked h d s r p a x y c q ps pr pp) :
    ∃ h₁ h₂, rotateLinks d.flip h (some r.addr) (some p.addr) = some h₁ ∧
      rotateLinks d h₁ (some s.addr) (some p.addr) = some h₂ ∧
      h₂.cell s.addr = some (s.sideRecord d (ptr y) (ptr c) (some p.addr)) ∧
      h₂.cell r.addr = some (r.sideRecord d (ptr a) (ptr x) (some p.addr)) ∧
      h₂.cell p.addr = some (p.sideRecord d (some r.addr) (some s.addr) pp) ∧
      Rep h₂ (some r.addr) x ∧ Rep h₂ (some s.addr) y ∧
      AgreeOff (s.addr :: r.addr :: p.addr :: (addrs x ++ addrs y)) h h₂ := by
  obtain ⟨hsr, hsp, hrp, hoff, hx, hy, hndx, hndy⟩ := B.distinct
  obtain ⟨_, hsx, hsy, _⟩ := hoff s.addr (by simp)
  obtain ⟨_, hrx, hry, _⟩ := hoff r.addr (by simp)
  obtain ⟨_, hpx, hpy, _⟩ := hoff p.addr (by simp)
  -- seen from the other side, `p` is the outer child of `r` and `x` the subtree that moves
  have hr := B.middle
  have hp := B.inner
  rw [← Cell.sideRecord_flip] at hr hp
  obtain ⟨h₁, e₁, hr₁, hp₁, hx₁, off₁⟩ := rotateLinks_spec hr hp B.innerFar hrp hrx hpx hndx
  rw [Cell.sideRecord_flip] at hr₁ hp₁
  have same₁ : ∀ z, z ≠ r.addr → z ≠ p.addr → z ∉ addrs x → h₁.cell z = h.cell z := by
    intro z h1 h2 h3
    exact off₁.2 z (by simp [h1, h2, h3])
  have hs₁ : h₁.cell s.addr = some (s.sideRecord d q (ptr c) ps) := by
    rw [same₁ _ hsr hsp hsx]
    exact B.outer
  have hy₁ : Rep h₁ (some p.addr) y := by
    refine B.innerNear.congr fun z hz => same₁ z ?_ ?_ (hy z hz).2.1
    · exact ne_of_mem_of_not_mem hz hry
    · exact ne_of_mem_of_not_mem hz hpy
  obtain ⟨h₂, e₂, hs₂, hp₂, hy₂, off₂⟩ := rotateLinks_spec hs₁ hp₁ hy₁ hsp hsy hpy hndy
  have same₂ : ∀ z, z ≠ s.addr → z ≠ p.addr → z ∉ addrs y → h₂.cell z = h₁.cell z := by
    intro z h1 h2 h3
    exact off₂.2 z (by simp [h1, h2, h3])
  refine ⟨h₁, h₂, e₁, e₂, hs₂, ?_, hp₂, ?_, hy₂, ?_⟩
  · rw [same₂ _ hsr.symm hrp hry, hr₁]
  · refine hx₁.congr fun z hz => same₂ z ?_ ?_ (hx z hz).2.1
    · exact ne_of_mem_of_not_mem hz hsx
    · exact ne_of_mem_of_not_mem hz hpx
  · exact (off₁.mono (by simp; tauto)).trans (off₂.mono (by simp; tauto))

/-- The tree after a double rotation whose three words were then rewritten. -/
theorem rotated {h₂ h' : Heap K} {s' r' p' : Cell K} (B : Kinked h d s r p a x y c q ps pr pp)
    (hx : Rep h₂ (some r.addr) x) (hy : Rep h₂ (some s.addr) y)
    (off : AgreeOff (s.addr :: r.addr :: p.addr :: (addrs x ++ addrs y)) h h₂)
    (hs' : h'.cell s.addr = some (s'.sideRecord d (ptr y) (ptr c) (some p.addr)))
    (hr' : h'.cell r.addr = some (r'.sideRecord d (ptr a) (ptr x) (some p.addr)))
    (hp' : h'.cell p.addr = some (p'.sideRecord d (some r.addr) (some s.addr) pp))
    (off' : AgreeOff [s.addr, r.addr, p.addr] h₂ h')
    (es : s'.addr = s.addr) (er : r'.addr = r.addr) (ep : p'.addr = p.addr) :
    Rep h' pp (join d p' (join d r' a x) (join d s' y c)) ∧
      AgreeOff (addrs (join d s (join d r a (join d p x y)) c)) h h' := by
  obtain ⟨_, _, _, hoff, hdx, hdy, _, _⟩ := B.distinct
  obtain ⟨hsa, hsx, hsy, hsc⟩ := hoff s.addr (by simp)
  obtain ⟨hra, hrx, hry, hrc⟩ := hoff r.addr (by simp)
  obtain ⟨hpa, hpx, hpy, hpc⟩ := hoff p.addr (by simp)
  have same' : ∀ z, z ≠ s.addr → z ≠ r.addr → z ≠ p.addr → h'.cell z = h₂.cell z := by
    intro z h1 h2 h3
    exact off'.2 z (by simp [h1, h2, h3])
  have same : ∀ z, z ≠ s.addr → z ≠ r.addr → z ≠ p.addr → z ∉ addrs x → z ∉ addrs y →
      h'.cell z = h.cell z := by
    intro z h1 h2 h3 h4 h5
    rw [same' z h1 h2 h3, off.2 z (by simp [h1, h2, h3, h4, h5])]
  refine ⟨?_, ?_⟩
  · rw [Rep_join, Rep_join, Rep_join, ep, er, es, ptr_join, ptr_join, er, es]
    refine ⟨hp', ⟨hr', B.far.congr ?_, hx.congr ?_⟩, hs', hy.congr ?_, B.near.congr ?_⟩
    · intro z hz
      refine same z ?_ ?_ ?_ (fun e => (hdx z e).1 hz) (fun e => (hdy z e).1 hz)
      · exact ne_of_mem_of_not_mem hz hsa
      · exact ne_of_mem_of_not_mem hz hra
      · exact ne_of_mem_of_not_mem hz hpa
    · intro z hz
      refine same' z ?_ ?_ ?_
      · exact ne_of_mem_of_not_mem hz hsx
      · exact ne_of_mem_of_not_mem hz hrx
      · exact ne_of_mem_of_not_mem hz hpx
    · intro z hz
      refine same' z ?_ ?_ ?_
      · exact ne_of_mem_of_not_mem hz hsy
      · exact ne_of_mem_of_not_mem hz hry
      · exact ne_of_mem_of_not_mem hz hpy
    · intro z hz
      refine same z ?_ ?_ ?_ (fun e => (hdx z e).2.2 hz) (fun e => (hdy z e).2.2 hz)
      · exact ne_of_mem_of_not_mem hz hsc
      · exact ne_of_mem_of_not_mem hz hrc
      · exact ne_of_mem_of_not_mem hz hpc
  · refine ⟨off'.1.trans off.1, fun z hz => ?_⟩
    simp only [mem_addrs_join, not_or] at hz
    obtain ⟨hs, ⟨hr, _, hp, hx', hy'⟩, _⟩ := hz
    exact same z hs hr hp hx' hy'

/-- Links and ranks of a double rotation. -/
theorem ranked (B : Kinked h d s r p a x y c q ps pr pp) :
    ∃ h₁ h₂ h₃ h₄, rotateLinks d.flip h (some r.addr) (some p.addr) = some h₁ ∧
      rotateLinks d h₁ (some s.addr) (some p.addr) = some h₂ ∧
      rotateRanks d.flip h₂ (some r.addr) (some p.addr) = some h₃ ∧
      rotateRanks d h₃ (some s.addr) (some p.addr) = some h₄ ∧
      h₄.cell s.addr =
        some ((lowered d s (raised d.flip r p)).sideRecord d (ptr y) (ptr c) (some p.addr)) ∧
      h₄.cell r.addr = some ((lowered d.flip r p).sideRecord d (ptr a) (ptr x) (some p.addr)) ∧
      h₄.cell p.addr =
        some ((raised d s (raised d.flip r p)).sideRecord d (some r.addr) (some s.addr) pp) ∧
      Rep h₄ (some r.addr) x ∧ Rep h₄ (some s.addr) y ∧
      AgreeOff (s.addr :: r.addr :: p.addr :: (addrs x ++ addrs y)) h h₄ := by
  obtain ⟨hsr, hsp, hrp, hoff, hdx, hdy, _, _⟩ := B.distinct
  obtain ⟨h₁, h₂, e₁, e₂, hs₂, hr₂, hp₂, hx₂, hy₂, off₂⟩ := B.turned
  obtain ⟨h₃, e₃, hr₃, hp₃, off₃⟩ := rotateRanks_spec d.flip hr₂ hp₂ hrp
  have hs₃ : h₃.cell s.addr = some (s.sideRecord d (ptr y) (ptr c) (some p.addr)) := by
    rw [off₃.2 _ (by simp [hsr, hsp])]
    exact hs₂
  rw [← raised_addr d.flip r p] at hp₃
  obtain ⟨h₄, e₄, hs₄, hp₄, off₄⟩ := rotateRanks_spec d hs₃ hp₃ (by simpa using hsp)
  simp only [raised_addr] at e₄ hs₄ hp₄ off₄
  have off₅ : AgreeOff [s.addr, r.addr, p.addr] h₂ h₄ :=
    (off₃.mono (by simp)).trans (off₄.mono (by simp))
  have same : ∀ z, z ≠ s.addr → z ≠ r.addr → z ≠ p.addr → h₄.cell z = h₂.cell z := by
    intro z h1 h2 h3
    exact off₅.2 z (by simp [h1, h2, h3])
  refine ⟨h₁, h₂, h₃, h₄, e₁, e₂, e₃, e₄, hs₄, ?_, hp₄, ?_, ?_, off₂.trans (off₅.mono (by simp))⟩
  · rw [off₄.2 _ (by simp [hsr.symm, hrp])]
    exact hr₃
  · refine hx₂.congr fun z hz => same z ?_ ?_ ?_
    · exact ne_of_mem_of_not_mem hz (hoff _ (by simp)).2.1
    · exact ne_of_mem_of_not_mem hz (hoff _ (by simp)).2.1
    · exact ne_of_mem_of_not_mem hz (hoff _ (by simp)).2.1
  · refine hy₂.congr fun z hz => same z ?_ ?_ ?_
    · exact ne_of_mem_of_not_mem hz (hoff _ (by simp)).2.2.1
    · exact ne_of_mem_of_not_mem hz (hoff _ (by simp)).2.2.1
    · exact ne_of_mem_of_not_mem hz (hoff _ (by simp)).2.2.1

/-- The tree after a double rotation whose three balances were then set. -/
theorem double {h₄ h' : Heap K} (B : Kinked h d s r p a x y c q ps pr pp)
    (hx : Rep h₄ (some r.addr) x) (hy : Rep h₄ (some s.addr) y)
    (off : AgreeOff (s.addr :: r.addr :: p.addr :: (addrs x ++ addrs y)) h h₄)
    {bs br : Int} (hbs : -1 ≤ bs ∧ bs ≤ 1) (hbr : -1 ≤ br ∧ br ≤ 1)
    (hs' : h'.cell s.addr = some (((lowered d s (raised d.flip r p)).setBal bs).sideRecord d
      (ptr y) (ptr c) (some p.addr)))
    (hr' : h'.cell r.addr = some (((lowered d.flip r p).setBal br).sideRecord d
      (ptr a) (ptr x) (some p.addr)))
    (hp' : h'.cell p.addr = some (((raised d s (raised d.flip r p)).setBal 0).sideRecord d
      (some r.addr) (some s.addr) pp))
    (off' : AgreeOff [s.addr, r.addr, p.addr] h₄ h') :
    Rep h' pp (rotateDouble d (s.setBal bs) (r.setBal br) (p.setBal 0) a x y c) ∧
      AgreeOff (addrs (join d s (join d r a (join d p x y)) c)) h h' := by
  have h0 : (-1 : Int) ≤ 0 ∧ (0 : Int) ≤ 1 := by decide
  rw [rotateDouble_eq, setBal_raised d.flip r p hbr h0, setBal_lowered d.flip r p hbr h0,
    setBal_raised d s _ hbs h0, setBal_lowered d s _ hbs h0]
  exact B.rotated hx hy off hs' hr' hp' off' (by simp) (by simp) (by simp)

end Kinked

/-- The balances a double rotation gives its outer and middle node when `b` was the
balance of the inner one. -/
def outerBal (d : Side) (b : Int) : Int := if b = d.sign then -d.sign else 0
def middleBal (d : Side) (b : Int) : Int := if b = -d.sign then d.sign else 0

theorem outerBal_bounds (d : Side) (b : Int) : -1 ≤ outerBal d b ∧ outerBal d b ≤ 1 := by
  unfold outerBal
  cases d <;> split <;> decide

theorem middleBal_bounds (d : Side) (b : Int) : -1 ≤ middleBal d b ∧ middleBal d b ≤ 1 := by
  unfold middleBal
  cases d <;> split <;> decide

theorem insertDoubleBalance_eq (h : Heap K) (d : Side) (b : Int) (s r : Ptr) :
    insertDoubleBalance h d.sign b s r =
      (h.setBalance s (outerBal d b)).bind fun h => h.setBalance r (middleBal d b) := by
  unfold insertDoubleBalance outerBal middleBal
  have hd : d.sign ≠ -d.sign := by cases d <;> decide
  split
  · rename_i hb
    rw [if_neg (by rw [hb]; exact hd)]
    rfl
  · split <;> rfl

/-- The links and ranks of a double rotation of an insertion. -/
theorem insertDouble_turn (h : Heap K) (d : Side) {s r : Ptr} {rn : AvlNode K} (hr : h.load r = some rn) :
    (if d.sign = -1 then insertDoubleRight h s r else insertDoubleLeft h s r) =
      (rotateLinks d.flip h r (rn.child d.flip)).bind fun h =>
        (rotateLinks d h s (rn.child d.flip)).bind fun h =>
          (rotateRanks d.flip h r (rn.child d.flip)).bind fun h =>
            (rotateRanks d h s (rn.child d.flip)).bind fun h => some (h, rn.child d.flip) := by
  cases d with
  | left =>
    rw [if_pos (show Side.left.sign = -1 from rfl), insertDoubleRight, hr]
    simp only [Side.flip_left, rotateLinks_bind, rotateRanks_left_bind, rotateRanks_right_bind]
    rfl
  | right =>
    rw [if_neg (by decide), insertDoubleLeft, hr]
    simp only [Side.flip_right, rotateLinks_bind, rotateRanks_left_bind, rotateRanks_right_bind]
    rfl

theorem Cell.sideRecord_parent (c : Cell K) (d : Side) (x y par : Ptr) :
    (c.sideRecord d x y par).parent = par := by
  cases d <;> rfl

/-- Two balances and then a third. -/
theorem setBalances_three {h : Heap K} {s r p : Cell K} {ds dr dp : Side}
    {xs ys ps xr yr pr xp yp pp : Ptr} (hs : h.cell s.addr = some (s.sideRecord ds xs ys ps))
    (hr : h.cell r.addr = some (r.sideRecord dr xr yr pr))
    (hp : h.cell p.addr = some (p.sideRecord dp xp yp pp)) (hsr : s.addr ≠ r.addr)
    (hsp : s.addr ≠ p.addr) (hrp : r.addr ≠ p.addr) (bs br bp : Int) :
    ∃ h₁ h₂ h₃, h.setBalance (some s.addr) bs = some h₁ ∧ h₁.setBalance (some r.addr) br = some h₂ ∧
      h₂.setBalance (some p.addr) bp = some h₃ ∧
      h₃.cell s.addr = some ((s.setBal bs).sideRecord ds xs ys ps) ∧
      h₃.cell r.addr = some ((r.setBal br).sideRecord dr xr yr pr) ∧
      h₃.cell p.addr = some ((p.setBal bp).sideRecord dp xp yp pp) ∧
      AgreeOff [s.addr, r.addr, p.addr] h h₃ := by
  obtain ⟨h₁, h₂, e₁, e₂, hs₂, hr₂, off₂⟩ := setBalances_spec hs hr hsr bs br
  have hp₂ : h₂.cell p.addr = some (p.sideRecord dp xp yp pp) := by
    rw [off₂.2 _ (by simp [hsp.symm, hrp.symm])]
    exact hp
  refine ⟨h₁, h₂, _, e₁, e₂, setBalance_spec hp₂ bp, ?_, ?_, put_cell_self .., ?_⟩
  · rw [put_cell_of_ne hsp]
    exact hs₂
  · rw [put_cell_of_ne hrp]
    exact hr₂
  · exact (off₂.mono (by simp)).trans (agreeOff_put (by simp))

theorem insertDouble_eq (h : Heap K) (a : Int) (s r : Ptr) :
    insertDouble h a s r =
      (if a = -1 then insertDoubleRight h s r else insertDoubleLeft h s r).bind fun hp =>
        (hp.1.balance hp.2).bind fun b => (insertDoubleBalance hp.1 a b s r).bind fun h =>
          (h.setBalance hp.2 0).bind fun h => some (h, hp.2) := by
  unfold insertDouble
  split <;> rfl

/-- The double rotation of an insertion. -/
theorem insertDouble_spec {h : Heap K} {d : Side} {s r p : Cell K} {a x y c : BinaryTree (Cell K)}
    {q ps pr pp : Ptr} (B : Kinked h d s r p a x y c q ps pr pp) :
    ∃ h', insertDouble h d.sign (some s.addr) (some r.addr) = some (h', some p.addr) ∧
      Rep h' pp (rotateDouble d (s.setBal (outerBal d p.bal)) (r.setBal (middleBal d p.bal))
        (p.setBal 0) a x y c) ∧
      AgreeOff (addrs (join d s (join d r a (join d p x y)) c)) h h' := by
  obtain ⟨hsr, hsp, hrp, _⟩ := B.distinct
  obtain ⟨h₁, h₂, h₃, h₄, e₁, e₂, e₃, e₄, hs₄, hr₄, hp₄, hx₄, hy₄, off₄⟩ := B.ranked
  have hbal : h₄.balance (some p.addr) = some p.bal := by
    rw [← raised_addr d.flip r p, ← raised_addr d s] at hp₄
    have := balance_spec hp₄
    simpa using this
  rw [← lowered_addr d s (raised d.flip r p)] at hs₄
  rw [← lowered_addr d.flip r p] at hr₄
  rw [← raised_addr d.flip r p, ← raised_addr d s] at hp₄
  obtain ⟨h₅, h₆, h₇, e₅, e₆, e₇, hs₇, hr₇, hp₇, off₇⟩ := setBalances_three hs₄ hr₄ hp₄
    (by simpa using hsr) (by simpa using hsp) (by simpa using hrp) (outerBal d p.bal)
    (middleBal d p.bal) 0
  simp only [lowered_addr, raised_addr] at e₅ e₆ e₇ hs₇ hr₇ hp₇ off₇
  refine ⟨h₇, ?_, B.double hx₄ hy₄ off₄ (outerBal_bounds ..) (middleBal_bounds ..) hs₇ hr₇ hp₇ off₇⟩
  rw [insertDouble_eq, insertDouble_turn h d ((load_some ..).trans B.middle),
    Cell.sideRecord_child_flip]
  simp only [e₁, e₂, e₃, e₄, hbal, insertDoubleBalance_eq, e₅, e₆, e₇, Option.bind_some]

/-- The double rotation of a deletion: around the left child first to the left. -/
def deleteDouble (d : Side) : Heap K → Ptr → Ptr → Option (Heap K × Ptr) :=
  match d with
  | .left => deleteDoubleRight
  | .right => deleteDoubleLeft

theorem deleteDouble_eq (h : Heap K) (d : Side) {s r : Ptr} {rn sn : AvlNode K}
    (hr : h.load r = some rn) (hs : h.load s = some sn) :
    deleteDouble d h s r =
      (h.modify (rn.child d.flip) fun n => { n with parent := sn.parent }).bind fun h =>
        (rotateLinks d.flip h r (rn.child d.flip)).bind fun h =>
          (rotateLinks d h s (rn.child d.flip)).bind fun h =>
            (rotateRanks d.flip h r (rn.child d.flip)).bind fun h =>
              (rotateRanks d h s (rn.child d.flip)).bind fun h => some (h, rn.child d.flip) := by
  cases d with
  | left =>
    rw [deleteDouble, deleteDoubleRight, hr, hs]
    simp only [Side.flip_left, rotateLinks_bind, rotateRanks_left_bind, rotateRanks_right_bind]
    rfl
  | right =>
    rw [deleteDouble, deleteDoubleLeft, hr, hs]
    simp only [Side.flip_right, rotateLinks_bind, rotateRanks_left_bind, rotateRanks_right_bind]
    rfl

/-- `p` linked to another parent. -/
theorem Kinked.lift {h : Heap K} {d : Side} {s r p : Cell K} {a x y c : BinaryTree (Cell K)}
    {q ps pr pp : Ptr} (B : Kinked h d s r p a x y c q ps pr pp) (par : Ptr) :
    ∃ h', (h.modify (some p.addr) fun n => { n with parent := par }) = some h' ∧
      Kinked h' d s r p a x y c q ps pr par ∧ AgreeOff [p.addr] h h' := by
  obtain ⟨hsr, hsp, hrp, hoff, _⟩ := B.distinct
  obtain ⟨hpa, hpx, hpy, hpc⟩ := hoff p.addr (by simp)
  refine ⟨h.put p.addr (p.sideRecord d (ptr x) (ptr y) par), ?_,
    ⟨?_, ?_, put_cell_self .., ?_, ?_, ?_, ?_, B.nodup⟩, agreeOff_put (by simp)⟩
  · rw [modify_eq B.inner, Cell.sideRecord_setParent]
  · rw [put_cell_of_ne hsp]
    exact B.outer
  · rw [put_cell_of_ne hrp]
    exact B.middle
  · exact B.far.congr fun z hz => put_cell_of_ne (ne_of_mem_of_not_mem hz hpa)
  · exact B.innerFar.congr fun z hz => put_cell_of_ne (ne_of_mem_of_not_mem hz hpx)
  · exact B.innerNear.congr fun z hz => put_cell_of_ne (ne_of_mem_of_not_mem hz hpy)
  · exact B.near.congr fun z hz => put_cell_of_ne (ne_of_mem_of_not_mem hz hpc)

theorem deleteDoubleBalance_eq (h : Heap K) (d : Side) (b : Int) (p q : Ptr) :
    deleteDoubleBalance h (-d.sign) b p q =
      (h.setBalance q (middleBal d b)).bind fun h => h.setBalance p (outerBal d b) := by
  unfold deleteDoubleBalance outerBal middleBal
  have hd : -d.sign ≠ d.sign := by cases d <;> decide
  rw [neg_neg]
  split
  · rename_i hb
    rw [if_neg (by rw [hb]; exact hd)]
    rfl
  · split <;> rfl

/-- The double rotation of a deletion, with the three balances set after it. -/
theorem deleteDouble_spec {h : Heap K} {d : Side} {s r p : Cell K} {a x y c : BinaryTree (Cell K)}
    {q ps pr pp : Ptr} (B : Kinked h d s r p a x y c q ps pr pp) :
    ∃ h₁ h₂ h', deleteDouble d h (some s.addr) (some r.addr) = some (h₁, some p.addr) ∧
      h₁.balance (some p.addr) = some p.bal ∧
      deleteDoubleBalance h₁ (-d.sign) p.bal (some s.addr) (some r.addr) = some h₂ ∧
      h₂.setBalance (some p.addr) 0 = some h' ∧
      Rep h' ps (rotateDouble d (s.setBal (outerBal d p.bal)) (r.setBal (middleBal d p.bal))
        (p.setBal 0) a x y c) ∧
      AgreeOff (addrs (join d s (join d r a (join d p x y)) c)) h h' := by
  obtain ⟨h₀, e₀, B₀, off₀⟩ := B.lift ps
  obtain ⟨hsr, hsp, hrp, _⟩ := B.distinct
  obtain ⟨h₁, h₂, h₃, h₄, e₁, e₂, e₃, e₄, hs₄, hr₄, hp₄, hx₄, hy₄, off₄⟩ := B₀.ranked
  rw [← lowered_addr d s (raised d.flip r p)] at hs₄
  rw [← lowered_addr d.flip r p] at hr₄
  rw [← raised_addr d.flip r p, ← raised_addr d s] at hp₄
  have hbal : h₄.balance (some p.addr) = some p.bal := by
    have := balance_spec hp₄
    simpa using this
  obtain ⟨h₅, h₆, h₇, e₅, e₆, e₇, hr₇, hs₇, hp₇, off₇⟩ := setBalances_three hr₄ hs₄ hp₄
    (by simpa using hsr.symm) (by simpa using hrp) (by simpa using hsp) (middleBal d p.bal)
    (outerBal d p.bal) 0
  simp only [lowered_addr, raised_addr] at e₅ e₆ e₇ hs₇ hr₇ hp₇ off₇
  obtain ⟨hrep, hoff⟩ := B₀.double hx₄ hy₄ off₄ (outerBal_bounds ..) (middleBal_bounds ..) hs₇ hr₇ hp₇
    (off₇.mono (by simp))
  refine ⟨h₄, h₆, h₇, ?_, hbal, ?_, e₇, hrep, (off₀.mono ?_).trans hoff⟩
  · rw [deleteDouble_eq h d ((load_some ..).trans B.middle) ((load_some ..).trans B.outer),
      Cell.sideRecord_child_flip, Cell.sideRecord_parent, e₀]
    simp only [Option.bind_some, e₁, e₂, e₃, e₄]
  · rw [deleteDoubleBalance_eq, e₅, Option.bind_some, e₆]
  · intro z hz
    rw [List.mem_singleton.mp hz, mem_addrs_join, mem_addrs_join, mem_addrs_join]
    exact Or.inr (Or.inl (Or.inr (Or.inr (Or.inl rfl))))

end IcecastCommon.Avl
