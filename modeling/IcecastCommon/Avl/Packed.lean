import IcecastCommon.Avl.Fields
import IcecastCommon.Avl.Runs

/- The packed word behaves as two fields. `unpack` takes the words of a heap apart; every
   function of `Code` is followed step by step by its namesake of `Fields`, which stores no
   rank outside `0 .. 2 ^ 30 - 1` on the way. -/
namespace IcecastCommon.Avl
open Library BinaryTree

variable {K : Type}

def unpackNode (n : AvlNode K) : Fields.Node K :=
  { key := n.key, left := n.left, right := n.right, parent := n.parent,
    rank := rankOf n.rankAndBalance, balance := avlGetBalance n.rankAndBalance }

def unpack (h : Heap K) : Fields.Heap K := { cell := fun a => (h.cell a).map unpackNode, next := h.next }

def unpackState (ob : AvlState K) : Fields.State K := { tree := ob.tree, heap := unpack ob.heap, freed := ob.freed }

/-- The ranks that the packed field has room for may be stored. -/
def AllowsRanks (allowed : Int → Bool) : Prop := ∀ r : Nat, r < 2 ^ 30 → allowed r = true

/-! Single accesses. -/

/-- Two runs in step, one access at a time. -/
theorem bind_lock {A B C D : Type} {x : Option A} {y : Option B} {φ : A → B} {ψ : C → D} {k : A → Option C}
    {k' : B → Option D} (hx : y = x.map φ) (hk : ∀ a, x = some a → k' (φ a) = (k a).map ψ) :
    y.bind k' = (x.bind k).map ψ := by
  rw [hx]
  cases x with
  | none => rfl
  | some a => exact hk a rfl

theorem load_lock (h : Heap K) (p : Ptr) : (unpack h).load p = (h.load p).map unpackNode := by
  cases p <;> rfl

theorem put_lock (h : Heap K) (a : Addr) (n : AvlNode K) : (unpack h).put a (unpackNode n) = unpack (h.put a n) := by
  rw [unpack, unpack, Fields.Heap.put]
  congr 1
  funext b
  rw [Heap.put_cell, Function.update_apply]
  split <;> rfl

theorem modify_lock (h : Heap K) (p : Ptr) {f : AvlNode K → AvlNode K} {g : Fields.Node K → Fields.Node K}
    (hfg : ∀ n, g (unpackNode n) = unpackNode (f n)) : (unpack h).modify p g = (h.modify p f).map unpack := by
  cases p with
  | none => rfl
  | some a =>
    cases hn : h.cell a with
    | none => simp [Fields.Heap.modify, Heap.modify, unpack, hn]
    | some n =>
      have hn' : (unpack h).cell a = some (unpackNode n) := congrArg (Option.map unpackNode) hn
      calc (unpack h).modify (some a) g
          = some ((unpack h).put a (g (unpackNode n))) := by simp [Fields.Heap.modify, hn']
        _ = some (unpack (h.put a (f n))) := by rw [hfg, put_lock]
        _ = (h.modify (some a) f).map unpack := by rw [Heap.modify_eq hn, Option.map_some]

theorem free_lock (h : Heap K) (p : Ptr) : (unpack h).free p = (h.free p).map unpack := by
  cases p with
  | none => rfl
  | some a =>
    have hcell : (unpack h).cell a = (h.cell a).map unpackNode := rfl
    cases hn : h.cell a with
    | none => simp [Fields.Heap.free, Heap.free, hcell, hn]
    | some n =>
      simp only [Fields.Heap.free, Heap.free, hcell, hn, Option.bind_eq_bind, Option.bind_some, Option.map_some,
        Option.some.injEq]
      rw [unpack, unpack]
      congr 1
      funext b
      show Function.update (unpack h).cell a none b = (Function.update h.cell a none b).map unpackNode
      rw [Function.update_apply, Function.update_apply]
      split <;> rfl

theorem rank_lock (h : Heap K) (p : Ptr) : (unpack h).rank p = (h.rank p).map fun r => (r.toNat : Int) := by
  rw [Fields.Heap.rank, Heap.rank, load_lock, Option.map_map, Option.map_map]
  rfl

theorem balance_lock (h : Heap K) (p : Ptr) : (unpack h).balance p = (h.balance p).map id := by
  rw [Fields.Heap.balance, Heap.balance, load_lock, Option.map_map, Option.map_map]
  rfl

theorem setBalance_lock (h : Heap K) (p : Ptr) {b : Int} (hb : -1 ≤ b ∧ b ≤ 1) :
    (unpack h).setBalance p b = (h.setBalance p b).map unpack := by
  apply modify_lock
  intro n
  simp only [unpackNode]
  rw [avlGetBalance_setBalance _ hb, rankOf_setBalance _ hb]

/-- A small rank goes into the word as it is. -/
theorem setRank_lock {allowed : Int → Bool} (hall : AllowsRanks allowed) (h : Heap K) (p : Ptr) {v : BitVec 32}
    {r : Int} (hr : r = v.toNat) (hv : v.toNat < 2 ^ 30) :
    (unpack h).setRank allowed p r = (h.setRank p v).map unpack := by
  rw [Fields.Heap.setRank, hr, if_pos (hall _ hv)]
  apply modify_lock
  intro n
  simp only [unpackNode]
  rw [avlGetBalance_setRank, rankOf_setRank, Nat.mod_eq_of_lt hv]

theorem avlNodeNew_lock (mem : Bool) (h : Heap K) (key : Option K) (parent : Ptr) :
    Fields.avlNodeNew mem (unpack h) key parent =
      ((avlNodeNew mem h key parent).1, unpack (avlNodeNew mem h key parent).2) := by
  cases mem with
  | false => rfl
  | true =>
    have hput := put_lock h h.next
      { key := key, left := none, right := none, parent := parent, rankAndBalance := avlSetRank (avlSetBalance 0 0) 1 }
    have hcell := congrArg Fields.Heap.cell hput
    have hword : unpackNode { key := key, left := none, right := none, parent := parent,
                              rankAndBalance := avlSetRank (avlSetBalance 0 0) 1 } =
        { key := key, left := none, right := none, parent := parent, rank := 1, balance := 0 } := by
      have hrank : rankOf (avlSetRank (avlSetBalance 0 0) 1) = 1 := by decide
      have hbal : avlGetBalance (avlSetRank (avlSetBalance 0 0) 1) = 0 := by decide
      simp only [unpackNode, hrank, hbal]
      rfl
    rw [hword] at hcell
    simp only [Fields.avlNodeNew, avlNodeNew, if_true]
    refine Prod.ext rfl ?_
    show Fields.Heap.mk _ _ = Fields.Heap.mk _ _
    congr 1

/-! Links. -/

section
variable {h₀ h : Heap K} {A B : Type} {ψ : A → B} {k : Heap K → Option A} {m : Fields.Heap K → Option B}

theorem modify_ranks {p : Ptr} {f : AvlNode K → AvlNode K} {h' : Heap K} (e : h.modify p f = some h')
    (hf : ∀ n, (f n).rankAndBalance = n.rankAndBalance) : h'.rank = h.rank := by
  cases p with
  | none => cases e
  | some a =>
    cases hn : h.cell a with
    | none => simp [Heap.modify, hn] at e
    | some n =>
      rw [Heap.modify_eq hn] at e
      obtain rfl := Option.some.inj e
      funext q
      cases q with
      | none => rfl
      | some b =>
        rw [Heap.rank, Heap.rank, Heap.load_some, Heap.load_some, Heap.put_cell]
        by_cases hb : b = a
        · rw [if_pos hb, hb, hn]
          exact congrArg (fun w => some (avlGetRank w)) (hf n)
        · rw [if_neg hb]

/-- Both nodes are changed alike, and not in their word. -/
structure SetsAlike (f : AvlNode K → AvlNode K) (g : Fields.Node K → Fields.Node K) : Prop where
  unpacked : ∀ n, g (unpackNode n) = unpackNode (f n)
  word : ∀ n, (f n).rankAndBalance = n.rankAndBalance

theorem setsAlike_left (p : Ptr) :
    SetsAlike (K := K) (fun n => { n with left := p }) (fun n => { n with left := p }) :=
  ⟨fun _ => rfl, fun _ => rfl⟩

theorem setsAlike_right (p : Ptr) :
    SetsAlike (K := K) (fun n => { n with right := p }) (fun n => { n with right := p }) :=
  ⟨fun _ => rfl, fun _ => rfl⟩

theorem setsAlike_parent (p : Ptr) :
    SetsAlike (K := K) (fun n => { n with parent := p }) (fun n => { n with parent := p }) :=
  ⟨fun _ => rfl, fun _ => rfl⟩

theorem setsAlike_key (key : Option K) : SetsAlike (fun n => { n with key := key }) (fun n => { n with key := key }) :=
  ⟨fun _ => rfl, fun _ => rfl⟩

/-- A link is set, and no rank changes. -/
theorem link_lock (S : h.rank = h₀.rank) (p : Ptr) {f : AvlNode K → AvlNode K} {g : Fields.Node K → Fields.Node K}
    (hfg : SetsAlike f g) (hk : ∀ h' : Heap K, h'.rank = h₀.rank → m (unpack h') = (k h').map ψ) :
    ((unpack h).modify p g).bind m = ((h.modify p f).bind k).map ψ :=
  bind_lock (modify_lock h p hfg.unpacked) fun h' e => hk h' ((modify_ranks e hfg.word).trans S)

theorem parent_lock (S : h.rank = h₀.rank) (c p : Ptr)
    (hk : ∀ h' : Heap K, h'.rank = h₀.rank → m (unpack h') = (k h').map ψ) :
    (Fields.setParent (unpack h) c p).bind m = ((setParent h c p).bind k).map ψ := by
  cases c with
  | none => exact hk h S
  | some c => exact link_lock S (some c) (setsAlike_parent p) hk

/-- Where `q` comes up and `p` goes down, the subtree `c` swings over from `q` to `p`. -/
theorem swing_lock (S : h.rank = h₀.rank) (p c q : Ptr) {f f' : AvlNode K → AvlNode K}
    {g g' : Fields.Node K → Fields.Node K} (hfg : SetsAlike f g) (hfg' : SetsAlike f' g')
    (hk : ∀ h' : Heap K, h'.rank = h₀.rank → m (unpack h') = (k h').map ψ) :
    (((unpack h).modify p g).bind fun h => (Fields.setParent h c p).bind fun h => (h.modify q g').bind fun h =>
        (h.modify p fun n => { n with parent := q }).bind m) =
      ((h.modify p f).bind fun h => (setParent h c p).bind fun h => (h.modify q f').bind fun h =>
        (h.modify p fun n => { n with parent := q }).bind k).map ψ := by
  refine link_lock S p hfg fun h₁ S₁ => ?_
  refine parent_lock S₁ c p fun h₂ S₂ => ?_
  refine link_lock S₂ q hfg' fun h₃ S₃ => ?_
  exact link_lock S₃ p (setsAlike_parent q) hk

theorem rank_lt {p : Ptr} {v : BitVec 32} (e : h.rank p = some v) : v.toNat < 2 ^ 30 := by
  obtain ⟨n, _, rfl⟩ := Option.map_eq_some_iff.mp e
  exact rankOf_lt n.rankAndBalance

theorem setRank_ranks {p : Ptr} {v : BitVec 32} {h' : Heap K} (e : h.setRank p v = some h') (hv : v.toNat < 2 ^ 30) :
    h'.rank = Function.update h.rank p (some v) := by
  cases p with
  | none => cases e
  | some a =>
    cases hn : h.cell a with
    | none => simp [Heap.setRank, Heap.modify, hn] at e
    | some n =>
      rw [Heap.setRank_eq hn] at e
      obtain rfl := Option.some.inj e
      funext q
      rw [Function.update_apply]
      cases q with
      | none => rfl
      | some b =>
        rw [Heap.rank, Heap.load_some, Heap.put_cell]
        by_cases hb : b = a
        · have hrank : avlGetRank (avlSetRank n.rankAndBalance v) = v := by
            apply BitVec.eq_of_toNat_eq
            have hset := rankOf_setRank n.rankAndBalance v
            rw [Nat.mod_eq_of_lt hv] at hset
            exact hset
          rw [if_pos hb, if_pos (congrArg some hb), Option.map_some, hrank]
        · rw [if_neg hb, if_neg fun he => hb (Option.some.inj he)]
          rfl

end

/-! Rotations. -/

/-- What a rotation stores is small: the node above on the side `d` has the rank `s`, its
child there `r`. -/
def Bend (d : Side) (s r : BitVec 32) : Prop :=
  match d with
  | .left => r.toNat ≤ s.toNat
  | .right => r.toNat + s.toNat < 2 ^ 30

/-- The same of both updates of a double rotation, `p` the rank of the inner grandchild. -/
def Kink (d : Side) (s r p : BitVec 32) : Prop :=
  match d with
  | .left => p.toNat + r.toNat < 2 ^ 30 ∧ p.toNat + r.toNat ≤ s.toNat
  | .right => p.toNat ≤ r.toNat ∧ p.toNat + s.toNat < 2 ^ 30

def BendAt (h : Heap K) (d : Side) (s r : Ptr) : Prop :=
  ∀ rn, h.load r = some rn → ∃ u v, h.rank s = some u ∧ h.rank r = some v ∧ Bend d u v

def KinkAt (h : Heap K) (d : Side) (s r : Ptr) : Prop :=
  ∀ rn pn, h.load r = some rn → h.load (rn.child d.flip) = some pn →
    ∃ u v w, h.rank s = some u ∧ h.rank r = some v ∧ h.rank (rn.child d.flip) = some w ∧ Kink d u v w

section
variable {allowed : Int → Bool} {h : Heap K} {A B : Type} {ψ : A → B} {k : Heap K → Option A}
  {m : Fields.Heap K → Option B} {u v w : BitVec 32}

/-- `AVL_SET_RANK (p, AVL_GET_RANK (p) - AVL_GET_RANK (q))` -/
theorem rank_sub_lock (hall : AllowsRanks allowed) {p q : Ptr} (hv : h.rank p = some v) (hw : h.rank q = some w)
    (hle : w.toNat ≤ v.toNat)
    (hk : ∀ h' : Heap K, h'.rank = Function.update h.rank p (some (v - w)) → m (unpack h') = (k h').map ψ) :
    (((unpack h).rank p).bind fun v => ((unpack h).rank q).bind fun w =>
        ((unpack h).setRank allowed p (v - w)).bind m) =
      ((h.rank p).bind fun v => (h.rank q).bind fun w => (h.setRank p (v - w)).bind k).map ψ := by
  have hlt := rank_lt hv
  have hsub : (v - w).toNat = v.toNat - w.toNat := by
    rw [BitVec.toNat_sub]
    omega
  have hsmall : (v - w).toNat < 2 ^ 30 := by omega
  have hrank : (v.toNat : Int) - w.toNat = (v - w).toNat := by omega
  rw [rank_lock, rank_lock, hv, hw]
  apply bind_lock (setRank_lock hall h p hrank hsmall)
  exact fun h' e => hk h' (setRank_ranks e hsmall)

/-- `AVL_SET_RANK (p, AVL_GET_RANK (p) + AVL_GET_RANK (q))` -/
theorem rank_add_lock (hall : AllowsRanks allowed) {p q : Ptr} (hv : h.rank p = some v) (hw : h.rank q = some w)
    (hlt : v.toNat + w.toNat < 2 ^ 30)
    (hk : ∀ h' : Heap K, h'.rank = Function.update h.rank p (some (v + w)) → m (unpack h') = (k h').map ψ) :
    (((unpack h).rank p).bind fun v => ((unpack h).rank q).bind fun w =>
        ((unpack h).setRank allowed p (v + w)).bind m) =
      ((h.rank p).bind fun v => (h.rank q).bind fun w => (h.setRank p (v + w)).bind k).map ψ := by
  have hadd : (v + w).toNat = v.toNat + w.toNat := by
    rw [BitVec.toNat_add]
    omega
  have hsmall : (v + w).toNat < 2 ^ 30 := by omega
  have hrank : (v.toNat : Int) + w.toNat = (v + w).toNat := by omega
  rw [rank_lock, rank_lock, hv, hw]
  apply bind_lock (setRank_lock hall h p hrank hsmall)
  exact fun h' e => hk h' (setRank_ranks e hsmall)

/-- The ranks of a double rotation to the right, `p` coming up. -/
theorem ranks_right_lock (hall : AllowsRanks allowed) {s r p : Ptr} (hu : h.rank s = some u) (hv : h.rank r = some v)
    (hw : h.rank p = some w) (hkink : Kink .left u v w) (hk : ∀ h', m (unpack h') = (k h').map ψ) :
    (((unpack h).rank p).bind fun w => ((unpack h).rank r).bind fun v =>
        ((unpack h).setRank allowed p (w + v)).bind fun h => (h.rank s).bind fun u => (h.rank p).bind fun w =>
          (h.setRank allowed s (u - w)).bind m) =
      ((h.rank p).bind fun w => (h.rank r).bind fun v => (h.setRank p (w + v)).bind fun h =>
        (h.rank s).bind fun u => (h.rank p).bind fun w => (h.setRank s (u - w)).bind k).map ψ := by
  apply rank_add_lock hall hw hv hkink.1
  intro h₁ e
  have hadd : (w + v).toNat = w.toNat + v.toNat := by
    have hlt := hkink.1
    rw [BitVec.toNat_add]
    omega
  have hp : h₁.rank p = some (w + v) := by rw [e, Function.update_self]
  by_cases hsp : s = p
  · subst hsp
    exact rank_sub_lock hall hp hp (Nat.le_refl _) fun h₂ _ => hk h₂
  · have hs : h₁.rank s = some u := by rw [e, Function.update_of_ne hsp, hu]
    apply rank_sub_lock hall hs hp
    · rw [hadd]
      exact hkink.2
    · exact fun h₂ _ => hk h₂

/-- The ranks of a double rotation to the left. -/
theorem ranks_left_lock (hall : AllowsRanks allowed) {s r p : Ptr} (hu : h.rank s = some u) (hv : h.rank r = some v)
    (hw : h.rank p = some w) (hkink : Kink .right u v w) (hk : ∀ h', m (unpack h') = (k h').map ψ) :
    (((unpack h).rank r).bind fun v => ((unpack h).rank p).bind fun w =>
        ((unpack h).setRank allowed r (v - w)).bind fun h => (h.rank p).bind fun w => (h.rank s).bind fun u =>
          (h.setRank allowed p (w + u)).bind m) =
      ((h.rank r).bind fun v => (h.rank p).bind fun w => (h.setRank r (v - w)).bind fun h =>
        (h.rank p).bind fun w => (h.rank s).bind fun u => (h.setRank p (w + u)).bind k).map ψ := by
  apply rank_sub_lock hall hv hw hkink.1
  intro h₁ e
  -- no rank is larger than before
  have hless : ∀ {q : Ptr} {x : BitVec 32}, h.rank q = some x → ∃ y, h₁.rank q = some y ∧ y.toNat ≤ x.toNat := by
    intro q x hx
    by_cases hq : q = r
    · subst hq
      obtain rfl := Option.some.inj (hv.symm.trans hx)
      refine ⟨v - w, by rw [e, Function.update_self], ?_⟩
      have hle := hkink.1
      rw [BitVec.toNat_sub]
      omega
    · exact ⟨x, by rw [e, Function.update_of_ne hq, hx], Nat.le_refl _⟩
  obtain ⟨w', hw', hww⟩ := hless hw
  obtain ⟨u', hu', huu⟩ := hless hu
  apply rank_add_lock hall hw' hu'
  · have hlt := hkink.2
    omega
  · exact fun h₂ _ => hk h₂

end

/-- The heap and what is returned with it. -/
def unpackAt {A : Type} (r : Heap K × A) : Fields.Heap K × A := (unpack r.1, r.2)

section
variable {allowed : Int → Bool} {h : Heap K}

theorem insertSingle_lock (hall : AllowsRanks allowed) {d : Side} {s r : Ptr} (hbend : BendAt h d s r) :
    Fields.insertSingle allowed (unpack h) d.sign s r = (insertSingle h d.sign s r).map unpackAt := by
  have S : h.rank = h.rank := rfl
  -- the balances are set alike
  have hbalances : ∀ h' : Heap K, (((unpack h').setBalance s 0).bind fun h => (h.setBalance r 0).bind fun h =>
      some (h, r)) = ((h'.setBalance s 0).bind fun h => (h.setBalance r 0).bind fun h => some (h, r)).map unpackAt := by
    intro h'
    apply bind_lock (setBalance_lock h' s (by decide))
    intro h₁ _
    apply bind_lock (setBalance_lock h₁ r (by decide))
    intro h₂ _
    rfl
  rw [Fields.insertSingle, insertSingle]
  cases d with
  | left =>
    simp only [Side.sign_left, if_true, Option.bind_eq_bind]
    apply bind_lock (load_lock h r)
    intro rn hrn
    obtain ⟨u, v, hu, hv, hbend⟩ := hbend rn hrn
    refine swing_lock S s _ r (setsAlike_left _) (setsAlike_right _) fun h₁ S₁ => ?_
    rw [← S₁] at hu hv
    exact rank_sub_lock hall hu hv hbend fun h₂ _ => hbalances h₂
  | right =>
    simp only [Side.sign_right, Int.reduceNeg, reduceCtorEq, if_false, Option.bind_eq_bind]
    apply bind_lock (load_lock h r)
    intro rn hrn
    obtain ⟨u, v, hu, hv, hbend⟩ := hbend rn hrn
    refine swing_lock S s _ r (setsAlike_right _) (setsAlike_left _) fun h₁ S₁ => ?_
    rw [← S₁] at hu hv
    exact rank_add_lock hall hv hu hbend fun h₂ _ => hbalances h₂

theorem insertDoubleRight_lock (hall : AllowsRanks allowed) {s r : Ptr} (hkink : KinkAt h .left s r) :
    Fields.insertDoubleRight allowed (unpack h) s r = (insertDoubleRight h s r).map unpackAt := by
  rw [Fields.insertDoubleRight, insertDoubleRight]
  apply bind_lock (load_lock h r)
  intro rn hrn
  apply bind_lock (load_lock h rn.right)
  intro pn hpn
  obtain ⟨u, v, w, hu, hv, hw, hkink⟩ := hkink rn pn hrn hpn
  have S : h.rank = h.rank := rfl
  refine swing_lock S r _ rn.right (setsAlike_right _) (setsAlike_left _) fun h₁ S₁ => ?_
  apply bind_lock (load_lock h₁ rn.right)
  intro pn' _
  refine swing_lock S₁ s _ rn.right (setsAlike_left _) (setsAlike_right _) fun h₂ S₂ => ?_
  rw [← S₂] at hu hv hw
  exact ranks_right_lock hall hu hv hw hkink fun _ => rfl

theorem insertDoubleLeft_lock (hall : AllowsRanks allowed) {s r : Ptr} (hkink : KinkAt h .right s r) :
    Fields.insertDoubleLeft allowed (unpack h) s r = (insertDoubleLeft h s r).map unpackAt := by
  rw [Fields.insertDoubleLeft, insertDoubleLeft]
  apply bind_lock (load_lock h r)
  intro rn hrn
  apply bind_lock (load_lock h rn.left)
  intro pn hpn
  obtain ⟨u, v, w, hu, hv, hw, hkink⟩ := hkink rn pn hrn hpn
  have S : h.rank = h.rank := rfl
  refine swing_lock S r _ rn.left (setsAlike_left _) (setsAlike_right _) fun h₁ S₁ => ?_
  apply bind_lock (load_lock h₁ rn.left)
  intro pn' _
  refine swing_lock S₁ s _ rn.left (setsAlike_right _) (setsAlike_left _) fun h₂ S₂ => ?_
  rw [← S₂] at hu hv hw
  exact ranks_left_lock hall hu hv hw hkink fun _ => rfl

/-- Two balances are set one after the other. -/
theorem setBalances_lock (h : Heap K) (s r : Ptr) {b c : Int} (hb : -1 ≤ b ∧ b ≤ 1) (hc : -1 ≤ c ∧ c ≤ 1) :
    (((unpack h).setBalance s b).bind fun h => h.setBalance r c) =
      ((h.setBalance s b).bind fun h => h.setBalance r c).map unpack := by
  apply bind_lock (setBalance_lock h s hb)
  intro h₁ _
  exact setBalance_lock h₁ r hc

theorem insertDoubleBalance_lock (h : Heap K) (d : Side) (b : Int) (s r : Ptr) :
    Fields.insertDoubleBalance (unpack h) d.sign b s r = (insertDoubleBalance h d.sign b s r).map unpack := by
  rw [Fields.insertDoubleBalance, insertDoubleBalance]
  split
  · exact setBalances_lock h s r d.neg_sign_bounds (by decide)
  split
  · exact setBalances_lock h s r (by decide) d.sign_bounds
  · exact setBalances_lock h s r (by decide) (by decide)

theorem insertDouble_lock (hall : AllowsRanks allowed) {d : Side} {s r : Ptr} (hkink : KinkAt h d s r) :
    Fields.insertDouble allowed (unpack h) d.sign s r = (insertDouble h d.sign s r).map unpackAt := by
  -- the three balances, by that of the new top
  have hbalances : ∀ (h : Heap K) (p : Ptr),
      (((unpack h).balance p).bind fun b => (Fields.insertDoubleBalance (unpack h) d.sign b s r).bind fun h =>
        (h.setBalance p 0).bind fun h => some (h, p)) =
      ((h.balance p).bind fun b => (insertDoubleBalance h d.sign b s r).bind fun h =>
        (h.setBalance p 0).bind fun h => some (h, p)).map unpackAt := by
    intro h p
    apply bind_lock (balance_lock h p)
    intro b _
    apply bind_lock (insertDoubleBalance_lock h d b s r)
    intro h₁ _
    apply bind_lock (setBalance_lock h₁ p (by decide))
    exact fun _ _ => rfl
  rw [Fields.insertDouble, insertDouble]
  cases d with
  | left =>
    simp only [Side.sign_left, if_true, Option.bind_eq_bind]
    apply bind_lock (insertDoubleRight_lock hall hkink)
    intro out _
    exact hbalances out.1 out.2
  | right =>
    simp only [Side.sign_right, Int.reduceNeg, reduceCtorEq, if_false, Option.bind_eq_bind]
    apply bind_lock (insertDoubleLeft_lock hall hkink)
    intro out _
    exact hbalances out.1 out.2

theorem insertFinish_lock (h : Heap K) (t s p : Ptr) :
    Fields.insertFinish (unpack h) t s p = (insertFinish h t s p).map unpack := by
  rw [Fields.insertFinish, insertFinish]
  apply bind_lock (load_lock h t)
  intro tn _
  have hlast : ∀ h₁ : Heap K, (unpack h₁).modify p (fun n => { n with parent := t }) =
      (h₁.modify p fun n => { n with parent := t }).map unpack := fun h₁ => modify_lock h₁ p fun _ => rfl
  show (if s = tn.right then _ else _) = Option.map unpack (if s = tn.right then _ else _)
  split
  · apply bind_lock (modify_lock h t fun _ => rfl)
    exact fun h₁ _ => hlast h₁
  · apply bind_lock (modify_lock h t fun _ => rfl)
    exact fun h₁ _ => hlast h₁

theorem insertBalance_lock (hall : AllowsRanks allowed) {d : Side} (t : Ptr) {s r : Ptr} (q : Ptr)
    (hbend : BendAt h d s r) (hkink : KinkAt h d s r) :
    Fields.insertBalance allowed (unpack h) d.sign t s r q = (insertBalance h d.sign t s r q).map unpackAt := by
  -- the rotated subtree is hung below `t`
  have hfinish : ∀ (h : Heap K) (p : Ptr), ((Fields.insertFinish (unpack h) t s p).bind fun h => some (h, false)) =
      ((insertFinish h t s p).bind fun h => some (h, false)).map unpackAt := by
    intro h p
    apply bind_lock (insertFinish_lock h t s p)
    exact fun _ _ => rfl
  rw [Fields.insertBalance, insertBalance]
  apply bind_lock (balance_lock h s)
  intro b _
  show (if b = 0 then _ else _) = Option.map unpackAt (if b = 0 then _ else _)
  by_cases h0 : b = 0
  · rw [if_pos h0, if_pos h0]
    apply bind_lock (setBalance_lock h s d.sign_bounds)
    exact fun _ _ => rfl
  rw [if_neg h0, if_neg h0]
  show (if b = -d.sign then _ else _) = Option.map unpackAt (if b = -d.sign then _ else _)
  by_cases h1 : b = -d.sign
  · rw [if_pos h1, if_pos h1]
    apply bind_lock (setBalance_lock h s (by decide))
    exact fun _ _ => rfl
  rw [if_neg h1, if_neg h1]
  show (if b = d.sign then _ else _) = Option.map unpackAt (if b = d.sign then _ else _)
  by_cases h2 : b = d.sign
  · rw [if_pos h2, if_pos h2]
    apply bind_lock (balance_lock h r)
    intro br _
    show (if br = d.sign then _ else _) = Option.map unpackAt (if br = d.sign then _ else _)
    by_cases h3 : br = d.sign
    · rw [if_pos h3, if_pos h3]
      apply bind_lock (insertSingle_lock hall hbend)
      intro out _
      obtain ⟨h₁, p⟩ := out
      exact hfinish h₁ p
    rw [if_neg h3, if_neg h3]
    show (if br = -d.sign then _ else _) = Option.map unpackAt (if br = -d.sign then _ else _)
    by_cases h4 : br = -d.sign
    · rw [if_pos h4, if_pos h4]
      apply bind_lock (insertDouble_lock hall hkink)
      intro out _
      obtain ⟨h₁, p⟩ := out
      exact hfinish h₁ p
    · rw [if_neg h4, if_neg h4]
      exact hfinish h q
  · rw [if_neg h2, if_neg h2]
    rfl

end

/-- The second walk stores balances only. -/
theorem insertAdjust_lock (cmp : Option K → Option K → Int) (key : Option K) (q : Ptr) (fuel : Nat) (h : Heap K)
    (p : Ptr) : Fields.insertAdjust cmp key q fuel (unpack h) p = (insertAdjust cmp key q fuel h p).map unpack := by
  induction fuel generalizing h p with
  | zero => rfl
  | succ fuel ih =>
    rw [Fields.insertAdjust, insertAdjust]
    by_cases hpq : p ≠ q
    · rw [if_pos hpq, if_pos hpq]
      apply bind_lock (load_lock h p)
      intro n _
      show (if cmp key n.key < 1 then _ else _) = Option.map unpack (if cmp key n.key < 1 then _ else _)
      split
      · apply bind_lock (setBalance_lock h p (by decide))
        exact fun h₁ _ => ih h₁ n.left
      · apply bind_lock (setBalance_lock h p (by decide))
        exact fun h₁ _ => ih h₁ n.right
    · rw [if_neg hpq, if_neg hpq]
      rfl

/-! The ranks of a small tree. -/

/-- The child of a node and the node itself, on the side `d`. -/
theorem Focus.bendAt {h : Heap K} {hdr : Addr} {fs : List (Frame (Cell K))} {d : Side} {s : Cell K}
    {child sib : BinaryTree (Cell K)} (F : Focus h hdr fs (join d s child sib))
    (hexact : LeftSizes RankExact (join d s child sib)) (hsmall : (join d s child sib).numNodes < 2 ^ 30) :
    BendAt h d (some s.addr) (ptr child) := by
  intro rn hrn
  have hne : child ≠ nil := by
    rintro rfl
    cases hrn
  obtain ⟨r, a, b, rfl⟩ := exists_join d hne
  have B := F.bent
  rw [ptr_join]
  refine ⟨_, _, rank_spec B.outer, rank_spec B.inner, ?_⟩
  cases d with
  | left =>
    simp only [join_left, LeftSizes_node, RankExact, numNodes] at hexact hsmall
    show r.rank ≤ s.rank
    omega
  | right =>
    simp only [join_right, LeftSizes_node, RankExact, numNodes] at hexact hsmall
    show r.rank + s.rank < 2 ^ 30
    omega

/-- The same with the inner grandchild. -/
theorem Focus.kinkAt {h : Heap K} {hdr : Addr} {fs : List (Frame (Cell K))} {d : Side} {s : Cell K}
    {child sib : BinaryTree (Cell K)} (F : Focus h hdr fs (join d s child sib))
    (hexact : LeftSizes RankExact (join d s child sib)) (hsmall : (join d s child sib).numNodes < 2 ^ 30) :
    KinkAt h d (some s.addr) (ptr child) := by
  intro rn pn hrn hpn
  have hne : child ≠ nil := by
    rintro rfl
    cases hrn
  obtain ⟨r, a, b, rfl⟩ := exists_join d hne
  rw [ptr_join] at hrn ⊢
  have hinner : rn.child d.flip = ptr b := by
    have e := Option.some.inj (hrn.symm.trans F.bent.inner)
    rw [e]
    cases d <;> rfl
  rw [hinner] at hpn ⊢
  have hne : b ≠ nil := by
    rintro rfl
    cases hpn
  obtain ⟨p, x, y, rfl⟩ := exists_join d hne
  have B := F.kinked
  rw [ptr_join]
  refine ⟨_, _, _, rank_spec B.outer, rank_spec B.middle, rank_spec B.inner, ?_⟩
  cases d with
  | left =>
    simp only [join_left, LeftSizes_node, RankExact, numNodes] at hexact hsmall
    show p.rank + r.rank < 2 ^ 30 ∧ p.rank + r.rank ≤ s.rank
    omega
  | right =>
    simp only [join_right, LeftSizes_node, RankExact, numNodes] at hexact hsmall
    show p.rank ≤ r.rank ∧ p.rank + s.rank < 2 ^ 30
    omega

/-! The whole insertion. -/

section
variable {allowed : Int → Bool}

theorem insertLeaf_lock (mem : Bool) (key : Option K) (h : Heap K) (t s p : Ptr) {f : Ptr → AvlNode K → AvlNode K}
    {g : Ptr → Fields.Node K → Fields.Node K} (hfg : ∀ q n, g q (unpackNode n) = unpackNode (f q n)) :
    (match Fields.avlNodeNew mem (unpack h) key p with
      | (none, h) => some (h, none)
      | (some q, h) => (h.modify p (g (some q))).bind fun h => some (h, some (t, s, (some q : Ptr)))) =
      (match avlNodeNew mem h key p with
        | (none, h) => some (h, none)
        | (some q, h) => (h.modify p (f (some q))).bind fun h => some (h, some (t, s, (some q : Ptr)))).map
          unpackAt := by
  rw [avlNodeNew_lock]
  obtain ⟨q, h₁⟩ := avlNodeNew mem h key p
  cases q with
  | none => rfl
  | some q =>
    apply bind_lock (modify_lock h₁ p (hfg (some q)))
    exact fun _ _ => rfl

/-- Going down a tree with room for one node more. -/
theorem insertDescend_lock (hall : AllowsRanks allowed) (cmp : Option K → Option K → Int) (mem : Bool)
    (key : Option K) {hdr : Addr} {fuel : Nat} {h : Heap K} {fs : List (Frame (Cell K))} {c : Cell K}
    {l r : BinaryTree (Cell K)} (F : Focus h hdr fs (node c l r)) (hexact : LeftSizes RankExact (node c l r))
    (hsmall : (node c l r).numNodes + 1 < 2 ^ 30) (t s : Ptr) :
    Fields.insertDescend allowed cmp mem key fuel (unpack h) t s (some c.addr) =
      (insertDescend cmp mem key fuel h t s (some c.addr)).map unpackAt := by
  induction fuel generalizing h fs c l r t s with
  | zero => rfl
  | succ fuel ih =>
    obtain ⟨hc, hl, hr⟩ := hexact
    simp only [numNodes] at hsmall
    have hcell := F.cell (d := .left)
    -- one step into a child, whichever pointers are remembered
    have hdown : ∀ {h₁ : Heap K} {f : Frame (Cell K)} {c' : Cell K} {l' r' : BinaryTree (Cell K)},
        Focus h₁ hdr (f :: fs) (node c' l' r') → LeftSizes RankExact (node c' l' r') →
        (node c' l' r').numNodes + 1 < 2 ^ 30 →
        (((unpack h₁).balance (some c'.addr)).bind fun b =>
            if b ≠ 0 then Fields.insertDescend allowed cmp mem key fuel (unpack h₁) (some c.addr) (some c'.addr)
              (some c'.addr)
            else Fields.insertDescend allowed cmp mem key fuel (unpack h₁) t s (some c'.addr)) =
          ((h₁.balance (some c'.addr)).bind fun b =>
            if b ≠ 0 then insertDescend cmp mem key fuel h₁ (some c.addr) (some c'.addr) (some c'.addr)
            else insertDescend cmp mem key fuel h₁ t s (some c'.addr)).map unpackAt := by
      intro h₁ f c' l' r' F₁ hexact' hsmall'
      apply bind_lock (balance_lock h₁ _)
      intro b _
      show (if b ≠ 0 then _ else _) = Option.map unpackAt (if b ≠ 0 then _ else _)
      split
      · exact ih F₁ hexact' hsmall' _ _
      · exact ih F₁ hexact' hsmall' _ _
    rw [Fields.insertDescend, insertDescend]
    apply bind_lock (load_lock h (some c.addr))
    intro n hn
    obtain rfl := Option.some.inj (hcell.symm.trans hn)
    show (if cmp key c.key < 1 then _ else _) = Option.map unpackAt (if cmp key c.key < 1 then _ else _)
    by_cases hlt : cmp key c.key < 1
    · rw [if_pos hlt, if_pos hlt]
      apply bind_lock (rank_lock h (some c.addr))
      intro v hv
      obtain rfl := Option.some.inj ((rank_spec hcell).symm.trans hv)
      have hone : (avlGetRank c.word + 1).toNat = c.rank + 1 := by
        have hlt := c.rank_lt
        rw [BitVec.toNat_add, Cell.getRank_toNat]
        show (c.rank + 1) % 2 ^ 32 = c.rank + 1
        omega
      have hrank : (c.rank : Int) + 1 = (avlGetRank c.word + 1).toNat := by rw [hone]; rfl
      have hroom : (avlGetRank c.word + 1).toNat < 2 ^ 30 := by
        rw [hone, hc]
        omega
      apply bind_lock (setRank_lock hall h (some c.addr) hrank hroom)
      intro h₁ e₁
      rw [setRank_spec hcell] at e₁
      obtain rfl := Option.some.inj e₁
      have F₁ := focus_plug (f := ⟨.left, c.addRank 1, r⟩) |>.mp (F.put (b := c.addRank 1) rfl)
      cases l with
      | nil =>
        exact insertLeaf_lock (f := fun q n => { n with left := q }) (g := fun q n => { n with left := q }) mem key
          _ t s _ fun _ _ => rfl
      | node c' l' r' => exact hdown F₁ hl (by omega)
    · rw [if_neg hlt, if_neg hlt]
      have F₁ := focus_plug (f := ⟨.right, c, l⟩) |>.mp F
      cases r with
      | nil =>
        exact insertLeaf_lock (f := fun q n => { n with right := q }) (g := fun q n => { n with right := q }) mem key
          h t s _ fun _ _ => rfl
      | node c' l' r' => exact hdown F₁ hr (by omega)

/-- The code returned and the state after the call. -/
def unpackCall (r : Int × AvlState K) : Int × Fields.State K := (r.1, unpackState r.2)

/-- A tree with right ranks and room for one node more. -/
theorem avlInsert_lock (hall : AllowsRanks allowed) {ob : AvlState K} {hdr : Addr} {t : BinaryTree (Cell K)}
    (H : Holds ob hdr t) (hranked : AvlRanked t) (hsmall : t.numNodes + 1 < 2 ^ 30) (key : Option K) :
    Fields.avlInsert allowed true (unpackState ob) key = (avlInsert true ob key).map unpackCall := by
  obtain ⟨w, hw⟩ := H.load_root
  rw [Fields.avlInsert, avlInsert]
  apply bind_lock (load_lock ob.heap ob.tree.root)
  intro root hroot
  obtain rfl := Option.some.inj (hw.symm.trans hroot)
  cases t with
  | nil =>
    have hnew : Fields.avlNodeNew true (unpackState ob).heap key (unpackState ob).tree.root = _ :=
      avlNodeNew_lock true ob.heap key ob.tree.root
    simp only [unpackNode, ptr_nil]
    rw [hnew]
    apply bind_lock (modify_lock _ ob.tree.root fun _ => rfl)
    exact fun _ _ => rfl
  | node c l r =>
    have hexact : LeftSizes RankExact (node c l r) := ranked_exact hranked (leftSizes_lt (by omega))
    obtain ⟨h₁, h₂, below, s, above, sn, hcrit, e₁, hsn, hsign, hchild, e₂, F₂⟩ :=
      insertReady_spec ob.tree.compareFun key H.focus
    rw [← H.root] at e₁
    have hfix := critical_ranked (freshCell_rank ob.heap.next key) hranked hcrit
    have hsize : (s.plug (plug (below.map settle) (node (freshCell ob.heap.next key) nil nil))).numNodes ≤
        (node c l r).numNodes + 1 := critical_numNodes hcrit
    apply bind_lock (insertDescend_lock hall ob.tree.compareFun true key H.focus hexact hsmall _ _)
    intro out e
    obtain ⟨h, o⟩ := out
    obtain ⟨rfl, rfl⟩ : h₁ = h ∧ _ = o := by simpa using e₁.symm.trans e
    apply bind_lock (load_lock h₁ (some s.value.addr))
    intro n hn
    obtain rfl := Option.some.inj (hsn.symm.trans hn)
    apply bind_lock (insertAdjust_lock ob.tree.compareFun key _ _ h₁ _)
    intro h e
    rw [← hchild] at e₂
    obtain rfl := Option.some.inj (e₂.symm.trans e)
    -- the part of the tree that is repaired is as small as the whole
    obtain ⟨_, hmid⟩ := (leftSizes_plug ..).mp hfix
    have hroom := lt_of_le_of_lt hsize hsmall
    have hmid := ranked_exact hmid (leftSizes_lt hroom)
    have hbal := insertBalance_lock hall (some (parentOf hdr above)) (some ob.heap.next)
      (F₂.bendAt hmid hroom) (F₂.kinkAt hmid hroom)
    rw [← hsign, ← hchild] at hbal
    apply bind_lock hbal
    intro out _
    obtain ⟨h₃, grew⟩ := out
    cases grew <;> rfl

end

end IcecastCommon.Avl
