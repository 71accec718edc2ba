import IcecastCommon.Avl.Ownership
import IcecastCommon.Library.Traversal

/- The traversals of `avl.c`: `avl_get_first`, `avl_get_next`, `avl_get_prev` and
   `avl_iterate_inorder`. A climb knows the header by its NULL key only, so every stored
   key has to be non-NULL. The neighbour of a node on one side is the first value ahead of
   it there; following neighbours reads off the in-order sequence. -/
namespace IcecastCommon.Avl

variable {K σ : Type}

/-- `while (node->d) node = node->d`. -/
def walkDown (d : Library.Side) (h : Heap K) : Nat → Ptr → Option Ptr
  | 0, _ => none
  | fuel + 1, node => do
    let n ← h.load node
    match n.child d with
    | some c => walkDown d h fuel (some c)
    | none => some node

/-- The climb to the first ancestor that has `node` on its side `d`. -/
def climbUp (d : Library.Side) (h : Heap K) : Nat → Ptr → Option Ptr
  | 0, _ => none
  | fuel + 1, node => do
    let n ← h.load node
    match n.parent with
    | none => some none
    | some p => do
      let pn ← h.load (some p)
      if pn.key = none then some none
      else if node = pn.child d then some (some p)
      else climbUp d h fuel (some p)

/-- The body that `avl_get_prev` and `avl_get_next` share but for the sides. -/
def avlGetNeighbour (d : Library.Side) (h : Heap K) (node : Ptr) : Option Ptr := do
  let n ← h.load node
  if n.child d ≠ none then walkDown d.flip h h.next (n.child d)
  else climbUp d.flip h h.next node

/-- `avl_get_prev`. -/
def avlGetPrev (h : Heap K) (node : Ptr) : Option Ptr := avlGetNeighbour .left h node

/-- `avl_get_next`. -/
def avlGetNext (h : Heap K) (node : Ptr) : Option Ptr := avlGetNeighbour .right h node

/-- `avl_get_first`. -/
def avlGetFirst (tree : AvlState K) : Option Ptr := do
  let root ← tree.heap.load tree.tree.root
  match root.right with
  | none => some none
  | some x => do
    let n ← tree.heap.load (some x)
    if n.key = none then some none else walkDown .left tree.heap tree.heap.next (some x)

/-- `avl_iterate_inorder_helper`; `arg` is what `iter_arg` points to. -/
def avlIterateInorderHelper (iterFun : Option K → σ → Int × σ) (h : Heap K) :
    Nat → Ptr → σ → Option (Int × σ)
  | 0, _, _ => none
  | fuel + 1, node, arg => do
    let n ← h.load node
    let (result, arg) ←
      (if n.left ≠ none then avlIterateInorderHelper iterFun h fuel n.left arg else some (0, arg))
    if result ≠ 0 then some (result, arg)
    else
      let (result, arg) := iterFun n.key arg
      if result ≠ 0 then some (result, arg)
      else if n.right ≠ none then avlIterateInorderHelper iterFun h fuel n.right arg
      else some (0, arg)

/-- `avl_iterate_inorder`. -/
def avlIterateInorder (tree : AvlState K) (iterFun : Option K → σ → Int × σ) (arg : σ) :
    Option (Int × σ) := do
  if tree.tree.length ≠ 0 then
    let root ← tree.heap.load tree.tree.root
    avlIterateInorderHelper iterFun tree.heap tree.heap.next root.right arg
  else some (0, arg)

/-- The nodes met from `node` on until NULL, each with its key. -/
def follow (step : Ptr → Option Ptr) (h : Heap K) : Nat → Ptr → Option (List (Addr × Option K))
  | 0, _ => none
  | _ + 1, none => some []
  | fuel + 1, some a => do
    let n ← h.cell a
    let next ← step (some a)
    let rest ← follow step h fuel next
    some ((a, n.key) :: rest)

/-! Neighbours. -/

open Library BinaryTree Heap

/-- The address of the first value of a list. -/
def firstAddr (cs : List (Cell K)) : Ptr := cs.head?.map Cell.addr

theorem firstAddr_append {cs : List (Cell K)} (h : cs ≠ []) (ds : List (Cell K)) :
    firstAddr (cs ++ ds) = firstAddr cs := by
  cases cs with
  | nil => exact absurd rfl h
  | cons c cs => rfl

theorem inorderFrom_ne_nil {d : Side} {t : BinaryTree (Cell K)} (h : t ≠ nil) : inorderFrom d t ≠ [] := by
  obtain ⟨c, x, y, rfl⟩ := exists_join d h
  rw [inorderFrom_join]
  exact List.append_ne_nil_of_right_ne_nil _ (List.cons_ne_nil _ _)

theorem walkDown_spec (d : Side) {h : Heap K} {par : Ptr} {t : BinaryTree (Cell K)} {fuel : Nat}
    (ht : Rep h par t) (hne : t ≠ nil) (hfuel : t.height ≤ fuel) :
    walkDown d.flip h fuel (ptr t) = some (firstAddr (inorderFrom d t)) := by
  -- on the fuel: the loop stops at a node without a child on this side
  induction fuel generalizing par t with
  | zero =>
    obtain ⟨c, x, y, rfl⟩ := exists_join d hne
    simp at hfuel
  | succ fuel ih =>
    obtain ⟨c, x, y, rfl⟩ := exists_join d hne
    obtain ⟨hc, _, hy⟩ := (Rep_join ..).mp ht
    have hchild : (c.sideRecord d (ptr x) (ptr y) par).child d.flip = ptr y := by
      cases d <;> rfl
    rw [height_join] at hfuel
    rw [ptr_join, walkDown, inorderFrom_join]
    simp only [load_some, hc, Option.bind_eq_bind, Option.bind_some, hchild]
    cases hy' : y with
    | nil =>
      rw [inorderFrom_nil]
      rfl
    | node c' l r =>
      have hyne : y ≠ nil := by rw [hy']; simp
      have hrec := ih hy hyne (by omega)
      rw [hy'] at hrec hyne
      rw [firstAddr_append (inorderFrom_ne_nil hyne), ← hrec]
      rfl

/-- Every stored key of a list is non-NULL. -/
def NonNull (cs : List (Cell K)) : Prop := ∀ c ∈ cs, c.key ≠ none

theorem climbUp_spec (d : Side) {h : Heap K} {hdr : Addr} {fs : List (Frame (Cell K))}
    {t : BinaryTree (Cell K)} {fuel : Nat} (F : Focus h hdr fs t) (ht : t ≠ nil)
    (hkeys : NonNull (around fs)) (hfuel : fs.length < fuel) :
    climbUp d.flip h fuel (ptr t) = some (firstAddr (ahead d fs)) := by
  -- on the path: the loop stops at the first step from the other side, or at the header
  induction fs generalizing t fuel with
  | nil =>
    obtain ⟨fuel, rfl⟩ : ∃ n, fuel = n + 1 := ⟨fuel - 1, by omega⟩
    obtain ⟨a, n, hptr, hn, hpar, _⟩ := F.top ht
    obtain ⟨w, hw⟩ := F.ctx
    rw [hptr, climbUp]
    simp only [load_some, hn, hpar, Option.bind_eq_bind, Option.bind_some, parentOf, hw, if_true]
    rfl
  | cons f fs ih =>
    rw [List.length_cons] at hfuel
    obtain ⟨fuel, rfl⟩ : ∃ n, fuel = n + 1 := ⟨fuel - 1, by omega⟩
    obtain ⟨a, n, hptr, hn, hpar, _⟩ := F.top ht
    obtain ⟨pn, hpn, hhole, hother⟩ := F.parentCell ht
    have hkey : pn.key ≠ none := by
      have hf := F.ctx.1
      have hpn : h.cell f.value.addr = some pn := hpn
      rw [hf] at hpn
      have hk := hkeys f.value (by simp [around])
      rw [← Option.some.inj hpn]
      rcases f with ⟨_ | _, v, s⟩ <;> exact hk
    have hpn' : h.cell f.value.addr = some pn := hpn
    rw [hptr, climbUp]
    simp only [load_some, hn, hpar, Option.bind_eq_bind, Option.bind_some, parentOf, hpn', if_neg hkey]
    obtain ⟨e, v, s⟩ := f
    rcases Side.eq_or_flip e d with rfl | rfl
    · have hlink : (some a : Ptr) ≠ pn.child e.flip := by
        rw [← hptr]
        exact fun he => hother he.symm
      have F' := focus_plug.mpr F
      have hrec := ih F' (by cases e <;> simp [Frame.plug])
        (fun c hc => hkeys c (by simp [around, hc])) (by omega : fs.length < fuel)
      rw [if_neg hlink, ahead_same, ← hrec, Frame.plug, ptr_join]
    · have hlink : (some a : Ptr) = pn.child d.flip := by
        rw [← hptr]
        exact hhole.symm
      rw [if_pos hlink, ahead_flip]
      rfl

/-- The neighbour on side `d` is the first value ahead. -/
theorem avlGetNeighbour_spec (d : Side) {h : Heap K} {hdr : Addr} {fs : List (Frame (Cell K))}
    {c : Cell K} {x y : BinaryTree (Cell K)} (F : Focus h hdr fs (join d c x y))
    (hkeys : NonNull (around fs)) :
    avlGetNeighbour d h (some c.addr) = some (firstAddr (inorderFrom d x ++ ahead d fs)) := by
  have hc := F.cell
  have hchild : (c.sideRecord d (ptr x) (ptr y) (some (parentOf hdr fs))).child d = ptr x := by
    cases d <;> rfl
  rw [avlGetNeighbour]
  simp only [load_some, hc, Option.bind_eq_bind, Option.bind_some, hchild]
  by_cases hx : x = nil
  · have hlen := F.length_lt
    have hclimb := climbUp_spec d F (by cases d <;> simp) hkeys hlen
    rw [ptr_join] at hclimb
    rw [hx, ptr_nil, if_neg (by simp), inorderFrom_nil, List.nil_append, hclimb]
  · have hptr : ptr x ≠ none := by
      cases x with
      | nil => exact absurd rfl hx
      | node c' l r => simp
    have hsize := F.size_lt
    have hheight : x.height ≤ h.next := by
      have hle := height_le_numNodes x
      rw [numNodes_plug, numNodes_join] at hsize
      omega
    rw [if_pos hptr, walkDown_spec d ((Rep_join ..).mp F.tree).2.1 hx hheight,
      firstAddr_append (inorderFrom_ne_nil hx)]

theorem neighbour_split (d : Side) {h : Heap K} {hdr : Addr} {t : BinaryTree (Cell K)}
    {as bs : List (Cell K)} {c : Cell K} (F : Focus h hdr [] t) (hkeys : NonNull (inorder t))
    (hsplit : inorderFrom d t = as ++ c :: bs) :
    avlGetNeighbour d h (some c.addr) = some (firstAddr bs) ∧
      ∃ n, h.cell c.addr = some n ∧ n.key = c.key := by
  obtain ⟨fs, x, y, rfl, hrest⟩ := exists_hole d hsplit
  have F' : Focus h hdr fs (join d c x y) := by
    rw [focus_plug_all, List.append_nil] at F
    exact F
  have haround : NonNull (around fs) := by
    intro v hv
    exact hkeys v ((inorder_plug_perm fs _).mem_iff.mpr (List.mem_append_left _ hv))
  refine ⟨?_, _, F'.cell, by cases d <;> rfl⟩
  rw [avlGetNeighbour_spec d F' haround, hrest]

/-- Going to side `d` and back again. -/
theorem neighbour_inverse (d : Side) {h : Heap K} {hdr : Addr} {t : BinaryTree (Cell K)} {a b : Addr}
    (F : Focus h hdr [] t) (hkeys : NonNull (inorder t)) (ha : a ∈ addrs t)
    (hb : avlGetNeighbour d h (some a) = some (some b)) :
    avlGetNeighbour d.flip h (some b) = some (some a) := by
  obtain ⟨c, hc, rfl⟩ := List.mem_map.mp ha
  obtain ⟨as, bs, hsplit⟩ := List.append_of_mem (mem_inorderFrom.mpr hc)
  rw [(neighbour_split d F hkeys hsplit).1] at hb
  cases bs with
  | nil => cases hb
  | cons c' bs =>
    obtain rfl : c'.addr = b := Option.some.inj (Option.some.inj hb)
    have hback : inorderFrom d.flip t = bs.reverse ++ c' :: (c :: as.reverse) := by
      rw [inorderFrom_flip, hsplit]
      simp
    exact (neighbour_split d.flip F hkeys hback).1

/-! Sequences. -/

/-- The nodes of a tree in order, each with its key. -/
def visits (t : BinaryTree (Cell K)) : List (Addr × Option K) :=
  (inorder t).map fun c => (c.addr, c.key)

theorem follow_spec (d : Side) {h : Heap K} {hdr : Addr} {t : BinaryTree (Cell K)}
    {as cs : List (Cell K)} {fuel : Nat} (F : Focus h hdr [] t) (hkeys : NonNull (inorder t))
    (hsplit : inorderFrom d t = as ++ cs) (hfuel : cs.length < fuel) :
    follow (avlGetNeighbour d h) h fuel (firstAddr cs) = some (cs.map fun c => (c.addr, c.key)) := by
  -- on what is left of the sequence; `as` is what the traversal has seen
  induction cs generalizing as fuel with
  | nil =>
    obtain ⟨fuel, rfl⟩ : ∃ n, fuel = n + 1 := ⟨fuel - 1, by omega⟩
    rfl
  | cons c cs ih =>
    rw [List.length_cons] at hfuel
    obtain ⟨fuel, rfl⟩ : ∃ n, fuel = n + 1 := ⟨fuel - 1, by omega⟩
    obtain ⟨hnext, n, hn, hkey⟩ := neighbour_split d F hkeys hsplit
    have hsplit' : inorderFrom d t = (as ++ [c]) ++ cs := by simpa using hsplit
    have hrest := ih hsplit' (by omega : cs.length < fuel)
    show follow (avlGetNeighbour d h) h (fuel + 1) (some c.addr) = _
    rw [follow]
    simp only [hn, hnext, Option.bind_eq_bind, Option.bind_some, hrest, hkey, List.map_cons]

theorem avlGetFirst_spec {ob : AvlState K} {hdr : Addr} {t : BinaryTree (Cell K)} (H : Holds ob hdr t)
    (hkeys : NonNull (inorder t)) : avlGetFirst ob = some (firstAddr (inorder t)) := by
  obtain ⟨w, hw⟩ := H.load_root
  rw [avlGetFirst]
  simp only [hw, Option.bind_eq_bind, Option.bind_some]
  cases ht : t with
  | nil => rfl
  | node c l r =>
    have hne : t ≠ nil := by rw [ht]; simp
    have hwalk := walkDown_spec .right H.focus.tree hne H.height_lt.le
    have hk : c.key ≠ none := hkeys c (by rw [ht]; simp)
    have hcell : ob.heap.cell c.addr = some (c.record (ptr l) (ptr r) (some hdr)) := by
      have F := H.focus
      rw [ht] at F
      exact F.cell (d := .left)
    rw [ht, ptr_node] at hwalk
    simp only [ptr_node, load_some, hcell, Option.bind_some, Cell.record, if_neg hk]
    exact hwalk

theorem avlIterateInorderHelper_spec {iterFun : Option K → σ → Int × σ}
    (hzero : ∀ k s, (iterFun k s).1 = 0) {h : Heap K} {par : Ptr} {t : BinaryTree (Cell K)}
    {fuel : Nat} (ht : Rep h par t) (hfuel : t.height ≤ fuel) (arg : σ) :
    (if ptr t ≠ none then avlIterateInorderHelper iterFun h fuel (ptr t) arg else some (0, arg)) =
      some (0, (keys t).foldl (fun s k => (iterFun k s).2) arg) := by
  induction t generalizing fuel par arg with
  | nil => rfl
  | node c l r ihl ihr =>
    obtain ⟨fuel, rfl⟩ : ∃ n, fuel = n + 1 := ⟨fuel - 1, by simp only [height] at hfuel; omega⟩
    obtain ⟨hc, hl, hr⟩ := ht
    simp only [height] at hfuel
    have hleft := ihl hl (by omega : l.height ≤ fuel) arg
    rw [if_pos (by simp), ptr_node, avlIterateInorderHelper]
    simp only [load_some, hc, Cell.record, Option.bind_eq_bind, Option.bind_some, hleft, ne_eq,
      not_true_eq_false, if_false, hzero]
    rw [keys_node, List.foldl_append, List.foldl_cons]
    exact ihr hr (by omega : r.height ≤ fuel) _

theorem avlIterateInorder_spec {iterFun : Option K → σ → Int × σ}
    (hzero : ∀ k s, (iterFun k s).1 = 0) {ob : AvlState K} {hdr : Addr} {t : BinaryTree (Cell K)}
    (H : Holds ob hdr t) (hlen : ob.tree.length = 0 ↔ t = nil) (arg : σ) :
    avlIterateInorder ob iterFun arg =
      some (0, (keys t).foldl (fun s k => (iterFun k s).2) arg) := by
  obtain ⟨w, hw⟩ := H.load_root
  have hrec := avlIterateInorderHelper_spec hzero H.focus.tree H.height_lt.le arg
  rw [avlIterateInorder]
  cases t with
  | nil =>
    rw [if_neg (not_not.mpr (hlen.mpr rfl))]
    rfl
  | node c l r =>
    have hne : ob.tree.length ≠ 0 := fun hz => absurd (hlen.mp hz) (by simp)
    rw [if_pos (by simp)] at hrec
    simp only [if_pos hne, hw, Option.bind_eq_bind, Option.bind_some]
    exact hrec

/-! Runs. -/

theorem mem_keys_stepTree {cmp : Option K → Option K → Int} {next : Addr} {t : BinaryTree (Cell K)}
    {op : Op K} {k : Option K} (hk : k ∈ keys (stepTree cmp next t op).2) :
    k ∈ keys t ∨ op = .insert k := by
  cases op with
  | insert key =>
    simp only [stepTree, insertTree_keys] at hk
    rw [insertPath_keys cmp key t]
    have hcases : k = key ∨ _ := List.mem_cons.mp (List.perm_middle.mem_iff.mp hk)
    rcases hcases with rfl | hk
    · exact Or.inr rfl
    · exact Or.inl hk
  | delete freeKeyFun key =>
    left
    cases hD : deleteTree cmp key t with
    | some D =>
      obtain ⟨xs, ys, hkeys, hkeys', _⟩ := deleteTree_keys hD
      simp only [stepTree, hD, hkeys'] at hk
      rw [hkeys]
      rcases List.mem_append.mp hk with hk | hk
      · exact List.mem_append_left _ hk
      · exact List.mem_append_right _ (List.mem_cons_of_mem _ hk)
    | none =>
      simp only [stepTree, hD, missTree_keys hD] at hk
      exact hk

/-- Only inserted keys are stored, and successful calls keep the ranks right. -/
theorem run_keys (ops : List (Op K)) {ob : AvlState K} {t : BinaryTree (Cell K)} (S : Sound ob t) :
    ∃ codes ob' t', run ops ob = some (codes, ob') ∧ Sound ob' t' ∧
      ((∀ c ∈ codes, c = 0) → AvlRanked t → AvlRanked t') ∧
      ∀ k ∈ keys t', k ∈ keys t ∨ Op.insert k ∈ ops := by
  induction ops generalizing ob t with
  | nil => exact ⟨[], ob, t, rfl, S, fun _ h => h, fun k hk => Or.inl hk⟩
  | cons op ops ih =>
    obtain ⟨ob₁, e₁, S₁, _⟩ := apply_spec S op
    obtain ⟨codes, ob', t', e', S', hranked, hkeys⟩ := ih S₁
    refine ⟨(stepTree ob.tree.compareFun ob.heap.next t op).1 :: codes, ob', t', ?_, S', ?_, ?_⟩
    · rw [run, e₁]
      simp only [Option.bind_eq_bind, Option.bind_some, e']
    · intro hok ht
      refine hranked (fun c hc => hok c (List.mem_cons_of_mem _ hc)) ?_
      exact stepTree_ranked _ _ t op ht (hok _ List.mem_cons_self)
    · intro k hk
      rcases hkeys k hk with hk | hk
      · rcases mem_keys_stepTree hk with hk | rfl
        · exact Or.inl hk
        · exact Or.inr List.mem_cons_self
      · exact Or.inr (List.mem_cons_of_mem _ hk)

theorem runNew_keys (cmp : Option K → Option K → Int) (ops : List (Op K)) {codes : List Int}
    {ob : AvlState K} (hrun : runNew cmp ops = some (codes, ob)) :
    ∃ t, Sound ob t ∧ ((∀ c ∈ codes, c = 0) → AvlRanked t) ∧ ∀ k ∈ keys t, Op.insert k ∈ ops := by
  obtain ⟨ob₀, e₀, H₀, hlen₀, _⟩ := avlTreeNew_spec cmp
  obtain ⟨codes', ob', t, e, S, hranked, hmem⟩ := run_keys ops
    (⟨H₀, trivial, by rw [hlen₀]; rfl⟩ : Sound ob₀ nil)
  obtain ⟨rfl, rfl⟩ : codes' = codes ∧ ob' = ob := by
    rw [runNew, e₀] at hrun
    exact Prod.mk.inj (Option.some.inj (e.symm.trans hrun))
  refine ⟨t, S, fun hok => hranked hok trivial, fun k hk => ?_⟩
  rcases hmem k hk with h | h
  · exact absurd h (by simp [keys])
  · exact h

theorem nonNull_of_keys {t : BinaryTree (Cell K)} (h : ∀ k ∈ keys t, k ≠ none) : NonNull (inorder t) :=
  fun _ hc => h _ (List.mem_map_of_mem hc)

/-- After every run of successful calls with non-NULL keys: following `avl_get_next` from
`avl_get_first`, following `avl_get_prev` backwards from the last node, the callbacks of
`avl_iterate_inorder` and the answers of `avl_get_by_index` are one sequence, which has
every node once, and the two neighbour functions are inverse to each other. But
`avl_iterate_inorder` passes no key where the number of nodes is a multiple of `2 ^ 32`. -/
theorem traversals_agree (cmp : Option K → Option K → Int) (ops : List (Op K))
    (hops : ∀ key, Op.insert key ∈ ops → key ≠ none) {codes : List Int} {ob : AvlState K}
    (hrun : runNew cmp ops = some (codes, ob)) (hfound : ∀ c ∈ codes, c = 0) :
    ∃ t, Holds ob 0 t ∧ (addrs t).Nodup ∧
      (∃ first, avlGetFirst ob = some first ∧
        follow (avlGetNext ob.heap) ob.heap ob.heap.next first = some (visits t)) ∧
      follow (avlGetPrev ob.heap) ob.heap ob.heap.next (addrs t).getLast? =
        some (visits t).reverse ∧
      ((2 ^ 32 ∣ t.numNodes → t = nil) → ∀ (σ : Type) (iterFun : Option K → σ → Int × σ),
        (∀ k s, (iterFun k s).1 = 0) → ∀ arg, avlIterateInorder ob iterFun arg =
          some (0, (keys t).foldl (fun s k => (iterFun k s).2) arg)) ∧
      (2 ^ 32 ∣ t.numNodes → ∀ (σ : Type) (iterFun : Option K → σ → Int × σ) (arg : σ),
        avlIterateInorder ob iterFun arg = some (0, arg)) ∧
      (LeftSizes (fun _ n => n + 1 < 2 ^ 30) t →
        ∀ index, avlGetByIndex ob index = some (keys t)[index.toNat]?) ∧
      (∀ a ∈ addrs t, ∀ b, avlGetNext ob.heap (some a) = some (some b) →
        avlGetPrev ob.heap (some b) = some (some a)) ∧
      (∀ a ∈ addrs t, ∀ b, avlGetPrev ob.heap (some a) = some (some b) →
        avlGetNext ob.heap (some b) = some (some a)) := by
  obtain ⟨t, S, hranked, hmem⟩ := runNew_keys cmp ops hrun
  have hkeys := nonNull_of_keys fun k hk => hops k (hmem k hk)
  have F := S.holds.focus
  have hsize : (inorder t).length < ob.heap.next := by
    rw [inorder_length]
    exact F.size_lt
  refine ⟨t, S.holds, F.nodup_tree, ⟨firstAddr (inorder t), avlGetFirst_spec S.holds hkeys, ?_⟩,
    ?_, ?_, ?_, ?_, ?_, ?_⟩
  · exact follow_spec .right F hkeys (List.nil_append _).symm hsize
  · have hlast : (addrs t).getLast? = firstAddr (inorder t).reverse := by
      rw [firstAddr, List.head?_reverse, addrs, List.getLast?_map]
    have hback := follow_spec .left F hkeys (List.nil_append (inorderFrom .left t)).symm
      (by rwa [inorderFrom_length, ← inorder_length])
    rw [hlast, visits, ← List.map_reverse]
    exact hback
  · intro hcount σ iterFun hzero arg
    refine avlIterateInorder_spec hzero S.holds ?_ arg
    rw [S.length, ofNat_eq_zero_iff]
    exact ⟨hcount, fun ht => by simp [ht]⟩
  · intro hcount σ iterFun arg
    have hlen : ob.tree.length = 0 := by
      rw [S.length, ofNat_eq_zero_iff]
      exact hcount
    rw [avlIterateInorder, if_neg (not_not.mpr hlen)]
  · intro hleft index
    exact avlGetByIndex_ranked S (hranked hfound) hleft index
  · intro a ha b hb
    exact neighbour_inverse .right F hkeys ha hb
  · intro a ha b hb
    exact neighbour_inverse .left F hkeys ha hb

theorem traversals_agree_ints : ∃ ob t first, runNew compareInts
      [.insert (some 2), .insert (some 1), .insert (some 3), .delete false (some 2)] =
        some ([0, 0, 0, 0], ob) ∧ Holds ob 0 t ∧ avlGetFirst ob = some first ∧
      follow (avlGetNext ob.heap) ob.heap ob.heap.next first = some (visits t) := by
  have hops : ∀ key, Op.insert key ∈ [Op.insert (some (2 : Int)), .insert (some 1), .insert (some 3),
      .delete false (some 2)] → key ≠ none := by
    intro key hkey
    simp only [List.mem_cons, Op.insert.injEq, List.not_mem_nil, or_false, reduceCtorEq] at hkey
    rcases hkey with rfl | rfl | rfl <;> simp
  obtain ⟨ob, e⟩ : ∃ ob, runNew compareInts [.insert (some 2), .insert (some 1), .insert (some 3),
      .delete false (some 2)] = some ([0, 0, 0, 0], ob) := ⟨_, rfl⟩
  obtain ⟨t, H, _, ⟨first, hfirst, hfollow⟩, _⟩ := traversals_agree compareInts _ hops e (by simp)
  exact ⟨ob, t, first, e, H, hfirst, hfollow⟩

/-- After `2 ^ 32` insertions there is a first node, and `avl_iterate_inorder` passes no key. -/
theorem traversals_disagree : ∃ codes ob,
    runNew allEqual (List.replicate (2 ^ 32) (.insert (some ()))) = some (codes, ob) ∧
      (∀ c ∈ codes, c = 0) ∧ (∃ a, avlGetFirst ob = some (some a)) ∧
      ∀ arg : List (Option Unit),
        avlIterateInorder ob (fun k s => (0, s ++ [k])) arg = some (0, arg) := by
  obtain ⟨codes, ob, t, e, S, hn, hcodes⟩ := runNew_inserts allEqual (some ()) (2 ^ 32)
  obtain ⟨t', S', _, hmem⟩ := runNew_keys allEqual _ e
  obtain rfl := S'.holds.unique S.holds
  have hkeys : NonNull (inorder t') := nonNull_of_keys fun k hk => by
    have := List.eq_of_mem_replicate (hmem k hk)
    rw [Op.insert.inj this]
    simp
  have hlen : ob.tree.length = 0 := by
    rw [S.length, hn]
    exact (ofNat_eq_zero_iff _).mpr (Nat.dvd_refl _)
  refine ⟨codes, ob, e, hcodes, ?_, ?_⟩
  · rw [avlGetFirst_spec S.holds hkeys]
    have hlength := inorder_length t'
    rw [hn] at hlength
    cases hin : inorder t' with
    | nil => rw [hin] at hlength; exact absurd hlength (by decide)
    | cons c cs => exact ⟨c.addr, rfl⟩
  · intro arg
    rw [avlIterateInorder, if_neg (not_not.mpr hlen)]

end IcecastCommon.Avl
