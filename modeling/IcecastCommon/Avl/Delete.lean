import IcecastCommon.Avl.Insert
import IcecastCommon.Avl.TreeDelete

/- `avl_delete` on the heap does to the tree what `deleteTree` says, and leaves
   `undo` of the search path when the key is absent. The focus follows the search
   down, moves to the predecessor when the node has two children, and climbs back
   up one frame at a time. -/
namespace IcecastCommon.Avl
open Library BinaryTree Heap

variable {K : Type}

/-- The right link of the header, seen from anywhere in the tree. -/
theorem Focus.header {h : Heap K} {hdr : Addr} {fs : List (Frame (Cell K))} {t : BinaryTree (Cell K)}
    (F : Focus h hdr fs t) : ∃ n, h.cell hdr = some n ∧ n.right = ptr (plug fs t) ∧ n.parent = none := by
  have F₀ : Focus h hdr [] (plug fs t) := by
    rw [focus_plug_all, List.append_nil]
    exact F
  obtain ⟨w, hw⟩ := F₀.ctx
  exact ⟨_, hw, rfl, rfl⟩

/-- The node at the focus and its parent link. -/
theorem Focus.top {h : Heap K} {hdr : Addr} {fs : List (Frame (Cell K))} {t : BinaryTree (Cell K)}
    (F : Focus h hdr fs t) (ht : t ≠ nil) :
    ∃ a n, ptr t = some a ∧ h.cell a = some n ∧ n.parent = some (parentOf hdr fs) ∧ a ∈ addrs t := by
  obtain ⟨c, l, r, rfl⟩ := exists_join .left ht
  exact ⟨c.addr, _, rfl, F.cell (d := .left), rfl, by simp⟩

theorem ptr_plug_cons (f : Frame (Cell K)) (fs : List (Frame (Cell K))) (t : BinaryTree (Cell K)) :
    ∃ a, ptr (plug (f :: fs) t) = some a ∧ a ∈ aroundAddrs (f :: fs) := by
  induction fs generalizing f t with
  | nil => exact ⟨f.value.addr, by simp [Frame.plug], by simp [aroundAddrs, around]⟩
  | cons g gs ih =>
    obtain ⟨a, e, ha⟩ := ih g (f.plug t)
    refine ⟨a, e, ?_⟩
    rw [aroundAddrs, around, List.map_cons, List.map_append]
    exact List.mem_cons_of_mem _ (List.mem_append_right _ ha)

/-! The search. -/

/-- The climb restores the ranks of the nodes left to the left. -/
theorem undoRanks_spec {h : Heap K} {hdr : Addr} {fs : List (Frame (Cell K))} {t : BinaryTree (Cell K)}
    {fuel : Nat} (F : Focus h hdr fs t) (ht : t ≠ nil) (hfuel : fs.length < fuel) :
    ∃ h', undoRanks (some hdr) fuel h (ptr t) = some h' ∧
      Focus h' hdr [] (plug (fs.map undoFrame) t) ∧ h'.next = h.next := by
  -- on the path: each turn of the loop takes the focus to the parent
  induction fs generalizing h t fuel with
  | nil =>
    obtain ⟨fuel, rfl⟩ : ∃ n, fuel = n + 1 := ⟨fuel - 1, by omega⟩
    obtain ⟨n, hn, hright, _⟩ := F.header
    refine ⟨h, ?_, F, rfl⟩
    simp [undoRanks, hn, hright]
  | cons f fs ih =>
    rw [List.length_cons] at hfuel
    obtain ⟨fuel, rfl⟩ : ∃ n, fuel = n + 1 := ⟨fuel - 1, by omega⟩
    obtain ⟨n, hn, hright, _⟩ := F.header
    obtain ⟨a, xn, hptr, hxn, hpar, hmem⟩ := F.top ht
    obtain ⟨pn, hpn, hhole, hother⟩ := F.parentCell ht
    have hne : ptr t ≠ n.right := by
      obtain ⟨b, hb, hbmem⟩ := ptr_plug_cons f fs t
      rw [hright, hb, hptr]
      intro he
      refine F.around_not_mem (List.mem_cons_of_mem _ hbmem) ?_
      rwa [← Option.some.inj he]
    have F₀ := focus_plug.mpr F
    have hc := F₀.cell (d := f.side)
    have step : ∃ h₁, Focus h₁ hdr fs ((undoFrame f).plug t) ∧ h₁.next = h.next ∧
        (pn.left = some a ∧ h.rank (some f.value.addr) = some (avlGetRank f.value.word) ∧
            h.setRank (some f.value.addr) (avlGetRank f.value.word + 1) = some h₁ ∨
          pn.left ≠ some a ∧ h₁ = h) := by
      obtain ⟨d, v, sib⟩ := f
      cases d with
      | left =>
        have hl : pn.left = some a := hhole.trans hptr
        exact ⟨_, F₀.putSide (d := .left) (b := v.addRank 1) rfl, rfl,
          Or.inl ⟨hl, rank_spec hc, setRank_spec hc _⟩⟩
      | right =>
        have hl : pn.left ≠ some a := fun he => hother (he.trans hptr.symm)
        exact ⟨h, F₀, rfl, Or.inr ⟨hl, rfl⟩⟩
    obtain ⟨h₁, F₁, hnext₁, e₁⟩ := step
    obtain ⟨h', e', F', hnext'⟩ := ih F₁
      (by rcases f with ⟨_ | _, v, s⟩ <;> simp [undoFrame, Frame.plug]) (by omega : fs.length < fuel)
    refine ⟨h', ?_, F', hnext'.trans hnext₁⟩
    have hpn' : h.cell f.value.addr = some pn := hpn
    have hptr' : ptr ((undoFrame f).plug t) = some f.value.addr := by
      rcases f with ⟨_ | _, v, s⟩ <;> simp [undoFrame, Frame.plug]
    rw [undoRanks, load_some, hn]
    simp only [Option.bind_eq_bind, Option.bind_some]
    rw [if_pos hne, hptr, load_some, hxn, Option.bind_some, hpar]
    simp only [parentOf, load_some, hpn', Option.bind_some]
    rw [← hptr']
    rcases e₁ with ⟨hl, hrank, hset⟩ | ⟨hl, rfl⟩
    · rw [if_pos hl, hptr', hrank, Option.bind_some, hset, Option.bind_some, ← hptr', e']
    · rw [if_neg hl, e']

/-- "key not in tree": the rank of the last node goes up, and the climb follows. -/
theorem deleteMiss_spec {h : Heap K} {hdr : Addr} {fs : List (Frame (Cell K))} {c : Cell K}
    {l r : BinaryTree (Cell K)} (F : Focus h hdr fs (node c l r)) (hlen : fs.length < h.next) :
    ∃ h', ((h.rank (some c.addr)).bind fun x => (h.setRank (some c.addr) (x + 1)).bind fun h =>
        (undoRanks (some hdr) h.next h (some c.addr)).bind fun h => some (h, (none : Option Ptr))) =
          some (h', none) ∧
      Focus h' hdr [] (plug (fs.map undoFrame) (node (c.addRank 1) l r)) ∧ h'.next = h.next := by
  have hc := F.cell (d := .left)
  have hset := setRank_spec hc (avlGetRank c.word + 1)
  obtain ⟨h', e', F', hnext'⟩ := undoRanks_spec (F.put (b := c.addRank 1) rfl) (by simp) hlen
  refine ⟨h', ?_, F', hnext'⟩
  rw [rank_spec hc, Option.bind_some, hset, Option.bind_some]
  exact congrArg (fun x => x.bind fun h => some (h, (none : Option Ptr))) e'

/-- The search takes the focus along `deletePath`, or leaves `undo` of it. -/
theorem deleteSearch_spec (cmp : Option K → Option K → Int) (key : Option K) {hdr : Addr} {fuel : Nat}
    {h : Heap K} {fs : List (Frame (Cell K))} {c : Cell K} {l r : BinaryTree (Cell K)}
    (F : Focus h hdr fs (node c l r)) (hfuel : (node c l r).height ≤ fuel) :
    ∃ h', h'.next = h.next ∧
      match deletePath cmp key fs (node c l r) with
      | (gs, nil) => deleteSearch cmp (some hdr) key fuel h (some c.addr) = some (h', none) ∧
          Focus h' hdr [] (undo gs)
      | (gs, node c' l' r') =>
          deleteSearch cmp (some hdr) key fuel h (some c.addr) = some (h', some (some c'.addr)) ∧
          Focus h' hdr gs (node c' l' r') := by
  -- on the fuel; `fs` is the path down to the node the search is at
  induction fuel generalizing h fs c l r with
  | zero => simp at hfuel
  | succ fuel ih =>
    have hc := F.cell (d := .left)
    have hlen : fs.length < h.next := by
      have hsize := F.size_lt
      have hlen := length_le_outside fs
      rw [numNodes_plug] at hsize
      omega
    rw [deletePath, deleteSearch]
    simp only [height] at hfuel
    simp only [load_some, hc, Cell.sideRecord, Cell.record, Option.bind_eq_bind, Option.bind_some]
    by_cases hlt : cmp key c.key < 0
    · rw [if_pos hlt, if_pos hlt, rank_spec hc, Option.bind_some, setRank_spec hc, Option.bind_some]
      have F₁ := F.put (b := c.subRank 1) rfl
      cases l with
      | nil =>
        obtain ⟨h', e', F', hnext'⟩ := deleteMiss_spec F₁ hlen
        exact ⟨h', hnext', e', F'⟩
      | node cl ll lr =>
        obtain ⟨h', hnext', hih⟩ := ih (focus_plug (f := ⟨.left, c.subRank 1, r⟩) |>.mp F₁)
          (by omega : (node cl ll lr).height ≤ fuel)
        exact ⟨h', hnext', hih⟩
    rw [if_neg hlt, if_neg hlt]
    by_cases hgt : 0 < cmp key c.key
    · rw [if_pos hgt, if_pos hgt]
      cases r with
      | nil =>
        obtain ⟨h', e', F', hnext'⟩ := deleteMiss_spec F hlen
        exact ⟨h', hnext', e', F'⟩
      | node cr rl rr =>
        obtain ⟨h', hnext', hih⟩ := ih (focus_plug (f := ⟨.right, c, l⟩) |>.mp F)
          (by omega : (node cr rl rr).height ≤ fuel)
        exact ⟨h', hnext', hih⟩
    rw [if_neg hgt, if_neg hgt]
    exact ⟨h, rfl, rfl, F⟩

/-! The swap with the predecessor. -/

theorem deletePredecessor_spec {h : Heap K} {hdr : Addr} {gs fs : List (Frame (Cell K))} {y : Cell K}
    {yl : BinaryTree (Cell K)} {fuel : Nat} (F : Focus h hdr fs (plug gs (node y yl nil)))
    (hgs : ∀ g ∈ gs, g.side = .right) (hfuel : gs.length < fuel) :
    deletePredecessor h fuel (ptr (plug gs (node y yl nil))) = some (some y.addr) := by
  -- from the outer end of the spine, where the loop starts
  induction gs using List.reverseRecOn generalizing fs fuel with
  | nil =>
    obtain ⟨fuel, rfl⟩ : ∃ n, fuel = n + 1 := ⟨fuel - 1, by omega⟩
    simp [deletePredecessor, F.cell (d := .left), Cell.sideRecord, Cell.record]
  | append_singleton gs g ih =>
    rw [List.length_append, List.length_singleton] at hfuel
    obtain ⟨fuel, rfl⟩ : ∃ n, fuel = n + 1 := ⟨fuel - 1, by omega⟩
    obtain ⟨d, v, sib⟩ := g
    obtain rfl : d = .right := hgs ⟨d, v, sib⟩ (by simp)
    rw [plug_append] at F ⊢
    have F : Focus h hdr fs (Frame.plug ⟨.right, v, sib⟩ (plug gs (node y yl nil))) := F
    have hc := F.cell (d := .right)
    have ih := ih (focus_plug.mp F) (fun g hg => hgs g (by simp [hg])) (by omega : gs.length < fuel)
    obtain ⟨b, _, hptr, _⟩ := (focus_plug.mp F).top (by
      intro he
      have := congrArg ptr he
      cases gs with
      | nil => simp at this
      | cons g gs => obtain ⟨_, e, _⟩ := ptr_plug_cons g gs (node y yl nil); rw [e] at this; cases this)
    rw [plug_cons, plug_nil, Frame.plug, ptr_join, deletePredecessor]
    simp only [load_some, hc, Cell.sideRecord, Cell.record, Option.bind_eq_bind, Option.bind_some, hptr]
    rw [← hptr, ih]

/-- With a child missing nothing is swapped. -/
theorem deleteSwap_one {h : Heap K} {hdr : Addr} {fs : List (Frame (Cell K))} {c : Cell K}
    {l r : BinaryTree (Cell K)} (F : Focus h hdr fs (node c l r)) (hlr : l = nil ∨ r = nil) :
    deleteSwap h (some c.addr) = some (h, some c.addr) := by
  have hc := F.cell (d := .left)
  simp only [deleteSwap, load_some, hc, Cell.sideRecord, Cell.record, Option.bind_eq_bind,
    Option.bind_some]
  rw [if_neg]
  rcases hlr with rfl | rfl <;> simp

/-- With two children the node takes its predecessor's key and gives it its own. -/
theorem deleteSwap_both {h : Heap K} {hdr : Addr} {gs fs : List (Frame (Cell K))} {c y : Cell K}
    {yl r : BinaryTree (Cell K)} (F : Focus h hdr fs (node c (plug gs (node y yl nil)) r))
    (hgs : ∀ g ∈ gs, g.side = .right) (hr : r ≠ nil) :
    ∃ h', deleteSwap h (some c.addr) = some (h', some y.addr) ∧
      Focus h' hdr (gs ++ ⟨.left, { c with key := y.key }.subRank 1, r⟩ :: fs)
        (node { y with key := c.key } yl nil) ∧ h'.next = h.next := by
  have hc := F.cell (d := .left)
  have Fl := focus_plug (f := ⟨.left, c, r⟩) |>.mp F
  have hlen : gs.length < h.next := by
    have hsize := ((focus_plug_all gs).mp Fl).size_lt
    have hlen := length_le_outside (gs ++ ⟨.left, c, r⟩ :: fs)
    rw [numNodes_plug] at hsize
    simp only [List.length_append] at hlen
    omega
  have hpred := deletePredecessor_spec Fl hgs hlen
  have hy := ((focus_plug_all gs).mp Fl).cell (d := .left)
  -- the two keys are written one after the other, then the rank
  let x₁ : Cell K := { c with key := y.key }
  let y₁ : Cell K := { y with key := c.key }
  have F₁ := F.put (b := x₁) rfl
  have Fy₁ := (focus_plug_all gs).mp (focus_plug (f := ⟨.left, x₁, r⟩) |>.mp F₁)
  have hy₁ := Fy₁.cell (d := .left)
  have Fy₂ := Fy₁.put (b := y₁) rfl
  have F₂ := focus_plug.mpr ((focus_plug_all gs).mpr Fy₂)
  have hx₂ := F₂.cell (d := .left)
  have F₃ := F₂.put (b := x₁.subRank 1) rfl
  refine ⟨_, ?_, (focus_plug_all gs).mp (focus_plug (f := ⟨.left, _, r⟩) |>.mp F₃), rfl⟩
  have hkids : ptr (plug gs (node y yl nil)) ≠ none ∧ ptr r ≠ none := by
    refine ⟨?_, ?_⟩
    · intro he
      obtain ⟨n, hn⟩ := Nat.exists_eq_add_one.mpr (Nat.zero_lt_of_lt hlen)
      rw [he, hn] at hpred
      simp [deletePredecessor] at hpred
    · obtain ⟨c', l', r', rfl⟩ := exists_join .left hr
      simp
  rw [deleteSwap, load_some, hc]
  show (if ptr (plug gs (node y yl nil)) ≠ none ∧ ptr r ≠ none then
      (deletePredecessor h h.next (ptr (plug gs (node y yl nil)))).bind fun z =>
        (h.load z).bind fun yn => (h.modify (some c.addr) fun n => { n with key := yn.key }).bind fun h =>
          (h.modify z fun n => { n with key := c.key }).bind fun h =>
            (h.rank (some c.addr)).bind fun k => (h.setRank (some c.addr) (k - 1)).bind fun h =>
              some (h, z)
    else some (h, some c.addr)) = _
  rw [if_pos hkids, hpred, Option.bind_some, load_some, hy, Option.bind_some, modify_eq hc,
    Option.bind_some]
  refine (congrArg (fun o => Option.bind o _) (modify_eq hy₁ fun n => { n with key := c.key })).trans ?_
  show ((Heap.rank _ (some c.addr)).bind fun k => (Heap.setRank _ (some c.addr) (k - 1)).bind fun h =>
    some (h, some y.addr)) = _
  refine (congrArg (fun o => Option.bind o _) (rank_spec hx₂)).trans ?_
  exact congrArg (fun o => Option.bind o fun h => some (h, some y.addr))
    (setRank_spec hx₂ (avlGetRank c.word - 1))

/-! Unlinking. -/

theorem addrs_plug (fs : List (Frame (Cell K))) (t : BinaryTree (Cell K)) :
    addrs (plug fs t) = (before fs).map Cell.addr ++ addrs t ++ (after fs).map Cell.addr := by
  simp [addrs, inorder_plug]

theorem deleteScoot_eq (h : Heap K) {x : AvlNode K} {q : Ptr}
    (hx : x.left = none ∧ x.right = q ∨ x.right = none ∧ x.left = q) :
    deleteScoot h x = (setParent h q x.parent).bind fun h => some (h, q) := by
  obtain ⟨k, l, r, par, w⟩ := x
  rcases hx with ⟨rfl, rfl⟩ | ⟨rfl, rfl⟩
  · cases r <;> rfl
  · cases l <;> rfl

/-- The node `z` with one child missing is replaced by the other child and freed. -/
theorem deleteUnlink_spec {h : Heap K} {hdr : Addr} {fs : List (Frame (Cell K))} {z : Cell K}
    {zl zr child : BinaryTree (Cell K)} (F : Focus h hdr fs (node z zl zr))
    (hchild : zl = nil ∧ zr = child ∨ zr = nil ∧ zl = child) :
    ∃ h₁ h₂, deleteUnlink h (some z.addr) = some (h₁, (holeSide fs).sign) ∧
      h₁.free (some z.addr) = some h₂ ∧ Focus h₂ hdr fs child ∧ h₂.next = h.next := by
  have hc := F.cell (d := .left)
  obtain ⟨pn, hpn, hhole, hother⟩ := F.parentCell (by simp)
  obtain ⟨_, hl, hr⟩ := F.tree
  have hsub : (addrs child).Sublist (addrs (node z zl zr)) := by
    rw [addrs_node]
    rcases hchild with ⟨rfl, rfl⟩ | ⟨rfl, rfl⟩ <;> simp
  have hz : z.addr ∉ addrs child := by
    have hnd := F.nodup_tree
    rw [addrs_node, List.nodup_append, List.nodup_cons] at hnd
    rcases hchild with ⟨rfl, rfl⟩ | ⟨rfl, rfl⟩
    · exact hnd.2.1.1
    · exact fun hm => hnd.2.2 _ hm _ (by simp) rfl
  have hrep : Rep h (some z.addr) child := by
    rcases hchild with ⟨rfl, rfl⟩ | ⟨rfl, rfl⟩
    · exact hr
    · exact hl
  have hpar : parentOf hdr fs ∉ addrs (node z zl zr) := F.parentOf_not_mem
  have hparz : parentOf hdr fs ≠ z.addr := fun e => hpar (by rw [e]; simp)
  obtain ⟨h₀, e₀, hrep₀, hnext₀, hoff₀⟩ := setParent_spec (p := some (parentOf hdr fs)) hrep
    (hsub.nodup F.nodup_tree)
  have hpn₀ : h₀.cell (parentOf hdr fs) = some pn :=
    (hoff₀ _ fun hm => hpar (hsub.subset hm)).trans hpn
  let h₁ := h₀.put (parentOf hdr fs) (pn.setChild (holeSide fs) (ptr child))
  have hz₁ : h₁.cell z.addr = h.cell z.addr := (put_cell_of_ne hparz.symm).trans (hoff₀ _ hz)
  have off₂ : ∀ a, a ≠ z.addr → Function.update h₁.cell z.addr none a = h₁.cell a := by
    intro a ha
    rw [Function.update_of_ne ha]
  refine ⟨h₁, { h₁ with cell := Function.update h₁.cell z.addr none }, ?_, ?_, F.replace ?_ ?_ ?_ ?_ ?_,
    hnext₀⟩
  · have hscoot : deleteScoot h (z.sideRecord .left (ptr zl) (ptr zr) (some (parentOf hdr fs))) =
        some (h₀, ptr child) := by
      have hq : ptr zl = none ∧ ptr zr = ptr child ∨ ptr zr = none ∧ ptr zl = ptr child := by
        rcases hchild with ⟨rfl, rfl⟩ | ⟨rfl, rfl⟩ <;> simp
      rw [deleteScoot_eq h hq]
      show (setParent h (ptr child) (some (parentOf hdr fs))).bind _ = _
      rw [e₀, Option.bind_some]
    have hxpar : (z.sideRecord .left (ptr zl) (ptr zr) (some (parentOf hdr fs))).parent =
        some (parentOf hdr fs) := rfl
    simp only [deleteUnlink, load_some, hc, Option.bind_eq_bind, Option.bind_some, hscoot, hxpar, hpn₀]
    rw [ptr_node] at hhole hother
    simp only [h₁]
    cases hd : holeSide fs with
    | left =>
      rw [hd] at hhole
      have he : some z.addr = pn.left := Eq.symm hhole
      rw [if_pos he, modify_eq hpn₀]
      rfl
    | right =>
      rw [hd] at hother
      have hne : some z.addr ≠ pn.left := Ne.symm hother
      rw [if_neg hne, modify_eq hpn₀]
      rfl
  · rw [Heap.free]
    simp only [Option.bind_eq_bind, Option.bind_some, hz₁, hc]
  · rw [hpn]
    exact (off₂ _ hparz).trans (put_cell_self ..)
  · intro a ha hne
    have hat := F.around_not_mem ha
    refine (off₂ a ?_).trans ((put_cell_of_ne hne).trans (hoff₀ a fun hm => hat (hsub.subset hm)))
    rintro rfl
    exact hat (by simp)
  · refine hrep₀.congr fun a ha => (off₂ a ?_).trans (put_cell_of_ne ?_)
    · rintro rfl
      exact hz ha
    · rintro rfl
      exact hpar (hsub.subset ha)
  · refine List.Sublist.nodup ?_ F.nodup
    rw [addrs_plug, addrs_plug]
    exact (((List.Sublist.refl _).append hsub).append (List.Sublist.refl _)).cons_cons _
  · intro a ha
    have hsub' : (hdr :: addrs (plug fs child)).Sublist (hdr :: addrs (plug fs (node z zl zr))) := by
      rw [addrs_plug, addrs_plug]
      exact (((List.Sublist.refl _).append hsub).append (List.Sublist.refl _)).cons_cons _
    show a < h₀.next
    rw [hnext₀]
    exact F.bound a (hsub'.subset ha)

/-! The climb. -/

theorem shrink_ptr (f : Frame (Cell K)) (t : BinaryTree (Cell K)) : (shrink f t).1 ≠ nil := by
  intro he
  have := congrArg List.length (shrink_inorder wordFree_addr f t)
  rw [he] at this
  rcases f with ⟨_ | _, v, s⟩ <;> simp [Frame.plug] at this

theorem shrink_addrs (f : Frame (Cell K)) (t : BinaryTree (Cell K)) :
    (addrs (shrink f t).1).Perm (addrs (f.plug t)) :=
  addrs_perm_of_inorder (shrink_inorder wordFree_addr f t)

theorem deleteRotate_bind {β : Type} (d : Side) (h : Heap K) (p q : Ptr) (k : Heap K → Option β) :
    (if d.sign = -1 then (deleteRotateLeft h p q).bind k else (deleteRotateRight h p q).bind k) =
      (deleteRotate d.flip h p q).bind k := by
  cases d <;> rfl

theorem deleteDouble_bind {β : Type} (d : Side) (h : Heap K) (p q : Ptr) (k : Heap K × Ptr → Option β) :
    (if d.sign = 1 then (deleteDoubleRight h p q).bind k else (deleteDoubleLeft h p q).bind k) =
      (deleteDouble d.flip h p q).bind k := by
  cases d <;> rfl

/-- The rotations of case 3, seen from the node on the shortened side. -/
theorem deleteCase3Rotate_spec {h : Heap K} {hdr : Addr} {fs : List (Frame (Cell K))} {d : Side}
    {p : Cell K} {t sib : BinaryTree (Cell K)} (F : Focus h hdr fs (join d p t sib))
    (hp : p.bal = -d.sign) (hh : sib.height = t.height + 2) (hsib : AvlBalanced sib) :
    ∃ h', deleteCase3Rotate h (some p.addr) (ptr sib) d.sign =
        some (h', ptr (shrink ⟨d, p, sib⟩ t).1, (shrink ⟨d, p, sib⟩ t).2) ∧
      Rep h' (some (parentOf hdr fs)) (shrink ⟨d, p, sib⟩ t).1 ∧
      AgreeOff (addrs (join d p t sib)) h h' := by
  have hd0 : d.sign ≠ 0 := by cases d <;> decide
  have hp0 : p.bal ≠ 0 := by rw [hp]; omega
  have hpd : p.bal ≠ d.sign := by rw [hp]; omega
  have hne : sib ≠ nil := by
    rintro rfl
    simp at hh
  obtain ⟨q, a, b, rfl⟩ := exists_join d.flip hne
  rw [avlBalanced_join, Side.sign_flip] at hsib
  obtain ⟨hqb, hqlo, hqhi, ha, hb⟩ := hsib
  simp only [height_join] at hh
  have F' : Focus h hdr fs (join d.flip p (join d.flip q a b) t) := by
    rw [join_flip d p]
    exact F
  have B := F'.bent
  have hzero : (-1 : Int) ≤ 0 ∧ (0 : Int) ≤ 1 := by decide
  simp only [deleteCase3Rotate, ptr_join, balance_spec B.inner, balance_spec B.outer,
    Option.bind_eq_bind, Option.bind_some, deleteRotate_bind, deleteDouble_bind]
  rw [← join_flip d p, shrink]
  simp only [if_neg hp0, if_neg hpd, view_join]
  by_cases hq0 : q.bal = 0
  · -- case 3a
    simp only [if_pos hq0]
    obtain ⟨h₁, h₂, h', e₁, e₂, e₃, hrep, off⟩ := deleteRotate_spec B d.neg_sign_bounds d.sign_bounds
    refine ⟨h', ?_, hrep, off⟩
    rw [e₁, Option.bind_some, e₂, Option.bind_some, e₃, Option.bind_some, rotateSingle_eq, ptr_join]
    simp
  simp only [if_neg hq0]
  by_cases hq : q.bal = p.bal
  · -- case 3b
    simp only [if_pos hq]
    obtain ⟨h₁, h₂, h', e₁, e₂, e₃, hrep, off⟩ := deleteRotate_spec B hzero hzero
    refine ⟨h', ?_, hrep, off⟩
    rw [e₁, Option.bind_some, e₂, Option.bind_some, e₃, Option.bind_some, rotateSingle_eq, ptr_join]
    simp
  · -- case 3c: the inner grandchild is the taller one
    simp only [if_neg hq]
    have hbne : b ≠ nil := by
      rintro rfl
      rw [hp] at hq
      cases d <;> simp at hqb hq hh <;> omega
    obtain ⟨r, x, y, rfl⟩ := exists_join d.flip hbne
    obtain ⟨h₁, h₂, h', e₁, e₂, e₃, e₄, hrep, off⟩ := deleteDouble_spec F'.kinked
    rw [Side.sign_flip, neg_neg] at e₃
    have hbals : outerBal d.flip r.bal = (if r.bal = -d.sign then d.sign else 0) ∧
        middleBal d.flip r.bal = (if r.bal = d.sign then -d.sign else 0) := by
      rw [outerBal, middleBal, Side.sign_flip, neg_neg]
      exact ⟨rfl, rfl⟩
    rw [hbals.1, hbals.2] at hrep
    simp only [view_join]
    refine ⟨h', ?_, hrep, off⟩
    rw [e₁, Option.bind_some]
    simp only [e₂, Option.bind_some, e₃, e₄]
    rw [rotateDouble_eq, ptr_join]
    simp

/-- Case 3 with the link from above. -/
theorem deleteCase3_spec {h : Heap K} {hdr : Addr} {fs : List (Frame (Cell K))} {d : Side}
    {p : Cell K} {t sib : BinaryTree (Cell K)} (F : Focus h hdr fs (join d p t sib))
    (hp : p.bal = -d.sign) (hh : sib.height = t.height + 2) (hsib : AvlBalanced sib) :
    ∃ h', deleteCase3 h (some p.addr) d.sign =
        some (h', ptr (shrink ⟨d, p, sib⟩ t).1, (shrink ⟨d, p, sib⟩ t).2) ∧
      Focus h' hdr fs (shrink ⟨d, p, sib⟩ t).1 ∧ h'.next = h.next := by
  obtain ⟨h₁, e₁, hrep₁, off₁⟩ := deleteCase3Rotate_spec F hp hh hsib
  have hne : join d p t sib ≠ nil := by cases d <;> simp
  obtain ⟨n, hn, hhole, hother⟩ := F.parentCell hne
  rw [ptr_join] at hhole hother
  have hpar : parentOf hdr fs ∉ addrs (join d p t sib) := F.parentOf_not_mem
  have hperm := shrink_addrs ⟨d, p, sib⟩ t
  have hn₁ : h₁.cell (parentOf hdr fs) = some n := (off₁.2 _ hpar).trans hn
  have hq : (if d.sign = 1 then (p.sideRecord d (ptr t) (ptr sib) (some (parentOf hdr fs))).left
      else (p.sideRecord d (ptr t) (ptr sib) (some (parentOf hdr fs))).right) = ptr sib := by
    cases d <;> rfl
  refine ⟨h₁.put (parentOf hdr fs) (n.setChild (holeSide fs) (ptr (shrink ⟨d, p, sib⟩ t).1)), ?_,
    F.swing hn (put_cell_self ..) ?_ ?_ hperm off₁.1, off₁.1⟩
  · simp only [deleteCase3, load_some, F.cell, Option.bind_eq_bind, Option.bind_some, hq, e₁,
      Cell.sideRecord_parent, hn₁]
    cases hd : holeSide fs with
    | left =>
      rw [hd] at hhole
      have he : n.left = some p.addr := hhole
      rw [if_pos he, modify_eq hn₁]
      rfl
    | right =>
      rw [hd] at hother
      have hne : n.left ≠ some p.addr := hother
      rw [if_neg hne, modify_eq hn₁]
      rfl
  · intro a ha hne
    rw [put_cell_of_ne hne, off₁.2 a ha]
  · refine hrep₁.congr fun a ha => put_cell_of_ne ?_
    rintro rfl
    exact hpar (hperm.mem_iff.mp ha)

/-- One step of the climb is `shrink`. -/
theorem deleteCases_spec {h : Heap K} {hdr : Addr} {fs : List (Frame (Cell K))} {f : Frame (Cell K)}
    {t : BinaryTree (Cell K)} (F : Focus h hdr (f :: fs) t) (hf : f.Fits Cell.bal (t.height + 1)) :
    ∃ h', deleteCases h (some f.value.addr) f.side.sign = some (h', ptr (shrink f t).1, (shrink f t).2) ∧
      Focus h' hdr fs (shrink f t).1 ∧ h'.next = h.next := by
  have F₀ : Focus h hdr fs (join f.side f.value t f.sibling) := focus_plug.mpr F
  obtain ⟨d, p, sib⟩ := f
  have hc := F₀.cell
  obtain ⟨hb, hlo, hhi, hsib⟩ := hf
  simp only at hb hlo hhi hsib F₀ hc ⊢
  simp only [deleteCases, balance_spec hc, Option.bind_eq_bind, Option.bind_some]
  by_cases h0 : p.bal = 0
  · have hsign : (if d.sign = -1 then (1 : Int) else -1) = -d.sign := by cases d <;> rfl
    rw [if_pos h0, hsign, setBalance_spec hc, shrink]
    simp only [if_pos h0, ptr_join]
    exact ⟨_, rfl, F₀.putSide rfl, rfl⟩
  rw [if_neg h0]
  by_cases h1 : p.bal = d.sign
  · rw [if_pos h1, setBalance_spec hc, shrink]
    simp only [if_neg h0, if_pos h1, ptr_join]
    exact ⟨_, rfl, F₀.putSide rfl, rfl⟩
  · rw [if_neg h1]
    refine deleteCase3_spec F₀ ?_ ?_ hsib
    · cases d <;> simp at h1 ⊢ <;> omega
    · cases d <;> simp at hb h1 <;> omega

/-- The node above the focus, and the side that the code reads off it. -/
theorem Focus.hole_sign {h : Heap K} {hdr : Addr} {fs : List (Frame (Cell K))} {t : BinaryTree (Cell K)}
    (F : Focus h hdr fs t) (ht : t ≠ nil) :
    ∃ a xn pn, ptr t = some a ∧ h.cell a = some xn ∧ xn.parent = some (parentOf hdr fs) ∧
      h.cell (parentOf hdr fs) = some pn ∧
      (if some a = pn.left then (-1 : Int) else 1) = (holeSide fs).sign := by
  obtain ⟨a, xn, hptr, hxn, hpar, _⟩ := F.top ht
  obtain ⟨pn, hpn, hhole, hother⟩ := F.parentCell ht
  refine ⟨a, xn, pn, hptr, hxn, hpar, hpn, ?_⟩
  rw [hptr] at hhole hother
  cases hd : holeSide fs with
  | left =>
    rw [hd] at hhole
    have he : some a = pn.left := Eq.symm hhole
    rw [if_pos he]
    rfl
  | right =>
    rw [hd] at hother
    have hne : some a ≠ pn.left := Ne.symm hother
    rw [if_neg hne]
    rfl

/-- The climb out of a hole is `climb`. -/
theorem deleteClimb_spec {h : Heap K} {hdr : Addr} {fs : List (Frame (Cell K))}
    {t : BinaryTree (Cell K)} (shorter : Bool) {fuel : Nat} (F : Focus h hdr fs t)
    (hfs : Fits Cell.bal fs (t.height + (if shorter then 1 else 0))) (ht : AvlBalanced t)
    (hfuel : fs.length < fuel) :
    ∃ h', deleteClimb fuel h (some (parentOf hdr fs)) (holeSide fs).sign shorter = some h' ∧
      Focus h' hdr [] (climb fs t shorter).1 ∧ h'.next = h.next := by
  -- on the path above the hole; the loop stops early when the subtree has its old height
  induction fs generalizing h t shorter fuel with
  | nil =>
    obtain ⟨fuel, rfl⟩ : ∃ n, fuel = n + 1 := ⟨fuel - 1, by omega⟩
    obtain ⟨n, hn, _, hpar⟩ := F.header
    refine ⟨h, ?_, F, rfl⟩
    cases shorter with
    | false => rfl
    | true => simp [deleteClimb, parentOf, hn, hpar]
  | cons f fs ih =>
    rw [List.length_cons] at hfuel
    obtain ⟨fuel, rfl⟩ : ∃ n, fuel = n + 1 := ⟨fuel - 1, by omega⟩
    cases shorter with
    | false =>
      refine ⟨h, rfl, ?_, rfl⟩
      show Focus h hdr [] (plug (f :: fs) t)
      rw [focus_plug_all, List.append_nil]
      exact F
    | true =>
      obtain ⟨hf, hrest⟩ := hfs
      simp only [if_true] at hf hrest
      obtain ⟨hbal, hheight⟩ := shrink_balanced hf ht
      obtain ⟨h₁, e₁, F₁, hnext₁⟩ := deleteCases_spec F hf
      rw [← hheight] at hrest
      obtain ⟨h', e', F', hnext'⟩ := ih _ F₁ hrest hbal (by omega : fs.length < fuel)
      refine ⟨h', ?_, ?_, hnext'.trans hnext₁⟩
      · -- the climb goes on from the parent of the rebuilt subtree
        obtain ⟨a, xn, pn, hptr, hxn, hpar, hpn, hside⟩ := F₁.hole_sign (shrink_ptr f t)
        have hc := (focus_plug.mpr F).cell (d := f.side)
        show deleteClimb (fuel + 1) h (some f.value.addr) f.side.sign true = some h'
        simp only [deleteClimb, if_true, load_some, hc, Cell.sideRecord_parent, Option.bind_eq_bind,
          Option.bind_some, e₁, hptr, hxn, hpar]
        rw [if_pos (by simp)]
        simp only [hpn, Option.bind_some, hside, e']
      · rw [climb, if_pos rfl]
        exact F'

/-! The whole call. -/

/-- The node that is unlinked: the one found or its predecessor, with the key found. -/
theorem deleteSwap_spec {h : Heap K} {hdr : Addr} {fs : List (Frame (Cell K))} {c : Cell K}
    {l r : BinaryTree (Cell K)} (F : Focus h hdr fs (node c l r)) :
    ∃ h' z zl zr, deleteSwap h (some c.addr) = some (h', some z.addr) ∧ z.key = c.key ∧
      Focus h' hdr (deleteNode fs c l r).1 (node z zl zr) ∧
      (zl = nil ∧ zr = (deleteNode fs c l r).2.1 ∨ zr = nil ∧ zl = (deleteNode fs c l r).2.1) ∧
      h'.next = h.next := by
  rcases deleteNode_cases fs c l r with ⟨rfl, e⟩ | ⟨rfl, e⟩ | ⟨gs, y, yl, rfl, hs, hr, e⟩ <;> rw [e]
  · exact ⟨h, c, nil, r, deleteSwap_one F (Or.inl rfl), rfl, F, Or.inl ⟨rfl, rfl⟩, rfl⟩
  · exact ⟨h, c, l, nil, deleteSwap_one F (Or.inr rfl), rfl, F, Or.inr ⟨rfl, rfl⟩, rfl⟩
  · obtain ⟨h', e', F', hnext'⟩ := deleteSwap_both F hs hr
    exact ⟨h', { y with key := c.key }, yl, nil, e', rfl, F', Or.inr ⟨rfl, rfl⟩, hnext'⟩

theorem Focus.length_lt {h : Heap K} {hdr : Addr} {fs : List (Frame (Cell K))}
    {t : BinaryTree (Cell K)} (F : Focus h hdr fs t) : fs.length < h.next := by
  have hsize := F.size_lt
  have hlen := length_le_outside fs
  rw [numNodes_plug] at hsize
  omega

/-- `avl_delete` of a key that is there. -/
theorem avlDelete_spec {ob : AvlState K} {hdr : Addr} {t : BinaryTree (Cell K)} (H : Holds ob hdr t)
    (ht : AvlBalanced t) (freeKeyFun : Bool) {key : Option K} {D : Deleted K}
    (hD : deleteTree ob.tree.compareFun key t = some D) :
    ∃ ob', avlDelete freeKeyFun ob key = some (0, ob') ∧ Holds ob' hdr D.tree ∧
      ob'.tree = { ob.tree with length := ob.tree.length - 1 } ∧
      ob'.freed = if freeKeyFun then ob.freed ++ [D.key] else ob.freed := by
  obtain ⟨w, hw⟩ := H.load_root
  cases t with
  | nil => simp [deleteTree, deletePath] at hD
  | node c₀ l₀ r₀ =>
    have hbal := (deletePath_balanced ob.tree.compareFun key [] (node c₀ l₀ r₀)).mpr ht
    obtain ⟨h₁, hnext₁, hsearch⟩ := deleteSearch_spec ob.tree.compareFun key H.focus H.height_lt.le
    rw [deleteTree] at hD
    generalize hp : deletePath ob.tree.compareFun key [] (node c₀ l₀ r₀) = path at hD hsearch hbal
    obtain ⟨fs, _ | ⟨c, l, r⟩⟩ := path
    · cases hD
    obtain rfl := Option.some.inj hD
    obtain ⟨e₁, F₁⟩ := hsearch
    obtain ⟨hfits, hchild, _⟩ := deleteNode_balanced hbal
    obtain ⟨h₂, z, zl, zr, e₂, hkey, F₂, hz, hnext₂⟩ := deleteSwap_spec F₁
    obtain ⟨h₃, h₄, e₃, e₄, F₄, hnext₄⟩ := deleteUnlink_spec F₂ hz
    obtain ⟨h₅, e₅, F₅, _⟩ := deleteClimb_spec true F₄ hfits hchild F₄.length_lt
    refine ⟨⟨{ ob.tree with length := ob.tree.length - 1 }, h₅,
      if freeKeyFun then ob.freed ++ [c.key] else ob.freed⟩, ?_, ⟨H.root, F₅⟩, rfl, rfl⟩
    have hzkey : (z.sideRecord .left (ptr zl) (ptr zr) (some (parentOf hdr (deleteNode fs c l r).1))).key =
        c.key := hkey
    simp only [avlDelete, hw, Option.bind_eq_bind, Option.bind_some, ptr_node]
    rw [H.root, e₁]
    simp only [Option.bind_some, e₂, load_some, F₂.cell (d := .left), e₃, e₄, hzkey,
      Cell.sideRecord_parent, e₅]

/-- `avl_delete` of a key that is not there. -/
theorem avlDelete_miss {ob : AvlState K} {hdr : Addr} {t : BinaryTree (Cell K)} (H : Holds ob hdr t)
    (freeKeyFun : Bool) {key : Option K} (hmiss : deleteTree ob.tree.compareFun key t = none) :
    ∃ ob', avlDelete freeKeyFun ob key = some (-1, ob') ∧
      Holds ob' hdr (undo (deletePath ob.tree.compareFun key [] t).1) ∧
      ob'.tree = ob.tree ∧ ob'.freed = ob.freed := by
  obtain ⟨w, hw⟩ := H.load_root
  cases t with
  | nil =>
    refine ⟨ob, ?_, H, rfl, rfl⟩
    simp only [avlDelete, hw, Option.bind_eq_bind, Option.bind_some, ptr_nil]
  | node c₀ l₀ r₀ =>
    obtain ⟨h₁, _, hsearch⟩ := deleteSearch_spec ob.tree.compareFun key H.focus H.height_lt.le
    rw [deleteTree] at hmiss
    generalize hp : deletePath ob.tree.compareFun key [] (node c₀ l₀ r₀) = path at hmiss hsearch
    obtain ⟨fs, _ | ⟨c, l, r⟩⟩ := path
    · obtain ⟨e₁, F₁⟩ := hsearch
      refine ⟨{ ob with heap := h₁ }, ?_, ⟨H.root, F₁⟩, rfl, rfl⟩
      simp only [avlDelete, hw, Option.bind_eq_bind, Option.bind_some, ptr_node]
      rw [H.root, e₁]
      rfl
    · cases hmiss

end IcecastCommon.Avl
