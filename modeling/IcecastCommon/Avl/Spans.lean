import IcecastCommon.Avl.Nearest

/- Spans of keys and walks over positions: `avl_get_index_by_key`, `avl_get_span_by_key`,
   `avl_get_span_by_two_keys` and `avl_iterate_index_range`. With exact ranks the descent
   for a key knows how many keys it has left behind, and the walks over neighbours extend
   that position over the equal keys. A span is right when its two ends cut the ordered
   sequence where the keys stop being smaller and where they start being larger. -/
namespace IcecastCommon.Avl

variable {K σ : Type}

/-- The loop of `avl_get_index_by_key`: the node, or NULL, and `*index`. -/
def indexByKeyLoop (compareFun : Option K → Option K → Int) (h : Heap K) (key : Option K) :
    Nat → Ptr → BitVec 64 → Option (Ptr × BitVec 64)
  | 0, _, _ => none
  | fuel + 1, x, m => do
    let n ← h.load x
    let compareResult := compareFun key n.key
    if compareResult < 0 then
      match n.left with
      | some l =>
        let m := m - (← h.rank x).setWidth 64
        let m := m + (← h.rank (some l)).setWidth 64
        indexByKeyLoop compareFun h key fuel (some l) m
      | none => some (none, m - 2)
    else if 0 < compareResult then
      match n.right with
      | some r =>
        let m := m + (← h.rank (some r)).setWidth 64
        indexByKeyLoop compareFun h key fuel (some r) m
      | none => some (none, m - 1)
    else some (x, m - 1)

/-- `avl_get_index_by_key`; with an empty tree `*index` is not set. -/
def avlGetIndexByKey (tree : AvlState K) (key : Option K) : Option (Ptr × Option (BitVec 64)) := do
  let root ← tree.heap.load tree.tree.root
  match root.right with
  | none => some (none, none)
  | some x =>
    let m := (← tree.heap.rank (some x)).setWidth 64
    let (node, index) ← indexByKeyLoop tree.tree.compareFun tree.heap key tree.heap.next (some x) m
    some (node, some index)

/-- "search left": `i` after the walk from `left` over the keys equal to `key`. -/
def searchLeft (compareFun : Option K → Option K → Int) (h : Heap K) (key : Option K) :
    Nat → Ptr → BitVec 64 → Option (BitVec 64)
  | 0, _, _ => none
  | _ + 1, none, i => some i
  | fuel + 1, some left, i =>
    if 0 < i then do
      let n ← h.load (some left)
      if compareFun key n.key = 0 then
        let left ← avlGetPrev h (some left)
        searchLeft compareFun h key fuel left (i - 1)
      else some i
    else some i

/-- "search right": `j` after the walk from `right`, `length` being that of the tree. -/
def searchRight (compareFun : Option K → Option K → Int) (h : Heap K) (length : BitVec 32)
    (key : Option K) : Nat → Ptr → BitVec 64 → Option (BitVec 64)
  | 0, _, _ => none
  | _ + 1, none, j => some j
  | fuel + 1, some right, j =>
    if j ≤ length.setWidth 64 then do
      let n ← h.load (some right)
      if compareFun key n.key = 0 then
        let right ← avlGetNext h (some right)
        searchRight compareFun h length key fuel right (j + 1)
      else some j
    else some j

/-- `avl_get_span_by_key`: the return code, `*low` and `*high`. -/
def avlGetSpanByKey (tree : AvlState K) (key : Option K) : Option (Int × BitVec 64 × BitVec 64) := do
  let (node, m) ← avlGetIndexByKey tree key
  let m ← m
  match node with
  | some _ =>
    let left ← avlGetPrev tree.heap node
    let i ← searchLeft tree.tree.compareFun tree.heap key (tree.heap.next + 1) left m
    let right ← avlGetNext tree.heap node
    let j ← searchRight tree.tree.compareFun tree.heap tree.tree.length key (tree.heap.next + 1) right m
    some (0, i, j + 1)
  | none => some (0, m, m)

/-- `i` after the branch of `avl_get_span_by_two_keys` on `low_node`. -/
def spanLow (tree : AvlState K) (lowKey : Option K) (lowNode : Ptr) (i : BitVec 64) : Option (BitVec 64) :=
  match lowNode with
  | some _ => do
    let left ← avlGetPrev tree.heap lowNode
    searchLeft tree.tree.compareFun tree.heap lowKey (tree.heap.next + 1) left i
  | none => some (i + 1)

/-- `j` after its branch on `high_node`. -/
def spanHigh (tree : AvlState K) (highKey : Option K) (highNode : Ptr) (j : BitVec 64) : Option (BitVec 64) :=
  match highNode with
  | some _ => do
    let right ← avlGetNext tree.heap highNode
    searchRight tree.tree.compareFun tree.heap tree.tree.length highKey (tree.heap.next + 1) right j
  | none => some (j + 1)

/-- `avl_get_span_by_two_keys`. -/
def avlGetSpanByTwoKeys (tree : AvlState K) (lowKey highKey : Option K) :
    Option (Int × BitVec 64 × BitVec 64) := do
  -- we may need to swap them
  let order := tree.tree.compareFun lowKey highKey
  let (lowKey, highKey) := if 0 < order then (highKey, lowKey) else (lowKey, highKey)
  let (lowNode, i) ← avlGetIndexByKey tree lowKey
  let (highNode, j) ← avlGetIndexByKey tree highKey
  let i ← i
  let j ← j
  let i ← spanLow tree lowKey lowNode i
  let j ← spanHigh tree highKey highNode j
  some (0, i, j)

/-- "find the `<high-1>`th node". -/
def findByRank (h : Heap K) : Nat → Ptr → BitVec 64 → Option Ptr
  | 0, _, _ => none
  | fuel + 1, node, m => do
    let rank := (← h.rank node).setWidth 64
    let n ← h.load node
    if m < rank then findByRank h fuel n.left m
    else if rank < m then findByRank h fuel n.right (m - rank)
    else some node

/-- "call `<iter_fun>` on `<node>`, `<get_pred(node)>`, ..." -/
def iterateBack (iterFun : BitVec 64 → Option K → σ → Int × σ) (h : Heap K) :
    Nat → Ptr → BitVec 64 → σ → Option (Int × σ)
  | 0, _, _, _ => none
  | fuel + 1, node, numLeft, arg =>
    if numLeft ≠ 0 then do
      let numLeft := numLeft - 1
      let n ← h.load node
      let (result, arg) := iterFun numLeft n.key arg
      if result ≠ 0 then some (-1, arg)
      else
        let node ← avlGetPrev h node
        iterateBack iterFun h fuel node numLeft arg
    else some (0, arg)

/-- `avl_iterate_index_range`. -/
def avlIterateIndexRange (tree : AvlState K) (iterFun : BitVec 64 → Option K → σ → Int × σ)
    (low high : BitVec 64) (arg : σ) : Option (Int × σ) := do
  if tree.tree.length.setWidth 64 < high then some (-1, arg)
  else
    let numLeft := high - low
    let root ← tree.heap.load tree.tree.root
    let node ← findByRank tree.heap (tree.heap.next + 1) root.right high
    iterateBack iterFun tree.heap (tree.heap.next + 1) node numLeft arg

/-! The descent. -/

open Library BinaryTree Heap

/-- Where the descent for `k` ends: how many nodes it has left behind on their right, and
the node found. -/
def locate (cmp : Option K → Option K → Int) (k : Option K) : BinaryTree (Cell K) → Nat × Option (Cell K)
  | nil => (0, none)
  | node c l r =>
    if cmp k c.key < 0 then locate cmp k l
    else if 0 < cmp k c.key then (l.numNodes + 1 + (locate cmp k r).1, (locate cmp k r).2)
    else (l.numNodes, some c)

/-- `*index` for a descent that has left `n` nodes behind. -/
def foundIndex (n : Nat) (found : Option (Cell K)) : BitVec 64 :=
  match found with
  | some _ => BitVec.ofNat 64 n
  | none => BitVec.ofNat 64 n - 1

theorem RankExact.rank_setWidth {c : Cell K} {n : Nat} (h : RankExact c n) :
    (avlGetRank c.word).setWidth 64 = BitVec.ofNat 64 (n + 1) := by
  apply BitVec.eq_of_toNat_eq
  have hrank : (avlGetRank c.word).toNat = c.rank := rfl
  have := c.rank_lt
  rw [RankExact] at h
  rw [BitVec.toNat_setWidth, BitVec.toNat_ofNat, hrank, h]

theorem heap_rank {h : Heap K} {par : Ptr} {c : Cell K} {l r : BinaryTree (Cell K)}
    (ht : Rep h par (node c l r)) : h.rank (some c.addr) = some (avlGetRank c.word) := by
  rw [Heap.rank, load_some, ht.1]
  rfl

theorem toNat_ofNat_small {w x : Nat} (h : x < 2 ^ w) : (BitVec.ofNat w x).toNat = x := by
  rw [BitVec.toNat_ofNat, Nat.mod_eq_of_lt h]

theorem ofNat_add_sub (w x y : Nat) :
    BitVec.ofNat w (x + y) - BitVec.ofNat w y = BitVec.ofNat w x := by
  rw [BitVec.ofNat_add, BitVec.add_sub_cancel]

theorem indexByKeyLoop_spec (cmp : Option K → Option K → Int) {h : Heap K} (key : Option K) {fuel : Nat}
    {par : Ptr} {c : Cell K} {l r : BinaryTree (Cell K)} (ht : Rep h par (node c l r))
    (hexact : LeftSizes RankExact (node c l r)) (hfuel : (node c l r).height ≤ fuel) (b : Nat) :
    indexByKeyLoop cmp h key fuel (some c.addr) (BitVec.ofNat 64 (b + (l.numNodes + 1))) =
      some ((locate cmp key (node c l r)).2.map Cell.addr,
        foundIndex (b + (locate cmp key (node c l r)).1) (locate cmp key (node c l r)).2) := by
  -- on the fuel; `b` is how many nodes the descent has left behind on its left
  induction fuel generalizing par c l r b with
  | zero => simp at hfuel
  | succ fuel ih =>
    have hrank := heap_rank ht
    obtain ⟨hc, hl, hr⟩ := ht
    obtain ⟨hrc, hel, her⟩ := hexact
    have hrc := RankExact.rank_setWidth hrc
    simp only [height] at hfuel
    rw [indexByKeyLoop, locate]
    simp only [load_some, hc, Cell.record, hrank, Option.bind_eq_bind, Option.bind_some]
    split
    · -- to the left: the index goes back to before the root
      cases l with
      | nil =>
        simp only [ptr_nil, locate, foundIndex, numNodes, Option.map_none, Nat.add_zero, Nat.zero_add]
        rw [← ofNat_add_sub 64 b 1, BitVec.sub_sub]
        rfl
      | node cl ll lr =>
        have hm : BitVec.ofNat 64 (b + ((node cl ll lr).numNodes + 1)) -
            (avlGetRank c.word).setWidth 64 + (avlGetRank cl.word).setWidth 64 =
              BitVec.ofNat 64 (b + (ll.numNodes + 1)) := by
          rw [hrc, RankExact.rank_setWidth hel.1, ofNat_add_sub, ← BitVec.ofNat_add]
        simp only [ptr_node, heap_rank hl, Option.bind_some, hm]
        exact ih hl hel (by omega) b
    split
    · -- to the right: the root and its left subtree are behind
      cases r with
      | nil =>
        simp only [ptr_nil, locate, foundIndex, Option.map_none, Nat.add_zero]
      | node cr rl rr =>
        have hm : BitVec.ofNat 64 (b + (l.numNodes + 1)) + (avlGetRank cr.word).setWidth 64 =
            BitVec.ofNat 64 (b + (l.numNodes + 1) + (rl.numNodes + 1)) := by
          rw [RankExact.rank_setWidth her.1, ← BitVec.ofNat_add]
        have hrec := ih hr her (by omega) (b + (l.numNodes + 1))
        rw [Nat.add_assoc b (l.numNodes + 1) (locate cmp key (node cr rl rr)).1] at hrec
        simp only [ptr_node, heap_rank hr, Option.bind_some, hm]
        exact hrec
    · simp only [foundIndex, Option.map_some]
      rw [← Nat.add_assoc]
      exact congrArg (fun m => some (some c.addr, m)) (ofNat_add_sub 64 (b + l.numNodes) 1)

theorem avlGetIndexByKey_spec {ob : AvlState K} {hdr : Addr} {t : BinaryTree (Cell K)}
    (H : Holds ob hdr t) (hexact : LeftSizes RankExact t) (hne : t ≠ nil) (key : Option K) :
    avlGetIndexByKey ob key =
      some ((locate ob.tree.compareFun key t).2.map Cell.addr,
        some (foundIndex (locate ob.tree.compareFun key t).1 (locate ob.tree.compareFun key t).2)) := by
  obtain ⟨w, hw⟩ := H.load_root
  simp only [avlGetIndexByKey, hw, Option.bind_eq_bind, Option.bind_some]
  cases t with
  | nil => exact absurd rfl hne
  | node c l r =>
    have ht := H.focus.tree
    have hloop := indexByKeyLoop_spec ob.tree.compareFun key ht hexact H.height_lt.le 0
    rw [Nat.zero_add, Nat.zero_add] at hloop
    simp only [ptr_node, heap_rank ht, Option.bind_some, RankExact.rank_setWidth hexact.1, hloop]

/-! Where it ends. -/

theorem locate_found {cmp : Option K → Option K → Int} {k : Option K} {t : BinaryTree (Cell K)} {n : Nat}
    {c : Cell K} (h : locate cmp k t = (n, some c)) :
    cmp k c.key = 0 ∧ ∃ as bs, inorder t = as ++ c :: bs ∧ as.length = n := by
  induction t generalizing n with
  | nil => simp [locate] at h
  | node d l r ihl ihr =>
    rw [locate] at h
    rw [inorder_node]
    split at h
    · obtain ⟨hc, as, bs, hsplit, hlen⟩ := ihl h
      exact ⟨hc, as, bs ++ d :: inorder r, by rw [hsplit, List.append_assoc, List.cons_append], hlen⟩
    split at h
    · obtain ⟨hn, hfound⟩ := Prod.mk.inj h
      obtain ⟨hc, as, bs, hsplit, hlen⟩ := ihr (Prod.ext rfl hfound : locate cmp k r = ((locate cmp k r).1, some c))
      refine ⟨hc, inorder l ++ d :: as, bs, by simp [hsplit], ?_⟩
      rw [List.length_append, List.length_cons, inorder_length, hlen, ← hn]
      omega
    · obtain ⟨hn, hd⟩ := Prod.mk.inj h
      obtain rfl := Option.some.inj hd
      refine ⟨by omega, inorder l, inorder r, rfl, ?_⟩
      rw [inorder_length]
      exact hn

/-- A descent that finds nothing has left behind exactly the smaller keys. -/
theorem locate_absent {cmp : Option K → Option K → Int} (H : TotalPreorder cmp) {k : Option K}
    {t : BinaryTree (Cell K)} {n : Nat} (ht : Ordered cmp (keys t)) (h : locate cmp k t = (n, none)) :
    (∀ e ∈ keys t, cmp k e ≠ 0) ∧
      ∃ as bs, keys t = as ++ bs ∧ as.length = n ∧ (∀ e ∈ as, 0 < cmp k e) ∧ ∀ e ∈ bs, cmp k e < 0 := by
  have hsides : ∃ as bs, keys t = as ++ bs ∧ as.length = n ∧ (∀ e ∈ as, 0 < cmp k e) ∧
      ∀ e ∈ bs, cmp k e < 0 := by
    induction t generalizing n with
    | nil =>
      obtain rfl : 0 = n := (Prod.mk.inj h).1
      exact ⟨[], [], rfl, rfl, by simp, by simp⟩
    | node c l r ihl ihr =>
      obtain ⟨hl, hr, hlc, hcr⟩ := ordered_node ht
      rw [locate] at h
      rw [keys_node]
      split at h
      · rename_i hlt
        obtain ⟨as, bs, hsplit, hlen, has, hbs⟩ := ihl hl h
        refine ⟨as, bs ++ c.key :: keys r, by rw [hsplit, List.append_assoc], hlen, has, ?_⟩
        intro e he
        rcases List.mem_append.mp he with he | he
        · exact hbs e he
        · rcases List.mem_cons.mp he with rfl | he
          · exact hlt
          · exact H.lt_of_lt hlt (hcr e he)
      split at h
      · rename_i hgt
        obtain ⟨hn, hnone⟩ := Prod.mk.inj h
        obtain ⟨as, bs, hsplit, hlen, has, hbs⟩ :=
          ihr hr (Prod.ext rfl hnone : locate cmp k r = ((locate cmp k r).1, none))
        refine ⟨keys l ++ c.key :: as, bs, by rw [hsplit]; simp, ?_, ?_, hbs⟩
        · rw [List.length_append, List.length_cons, keys_length, hlen, ← hn]
          omega
        · intro e he
          rcases List.mem_append.mp he with he | he
          · exact H.gt_of_gt hgt (hlc e he)
          · rcases List.mem_cons.mp he with rfl | he
            · exact hgt
            · exact has e he
      · cases h
  refine ⟨?_, hsides⟩
  obtain ⟨as, bs, hsplit, _, has, hbs⟩ := hsides
  intro e he
  rw [hsplit, List.mem_append] at he
  rcases he with he | he
  · exact (has e he).ne'
  · exact (hbs e he).ne

/-! The walks over neighbours. -/

theorem searchLeft_spec (cmp : Option K → Option K → Int) {h : Heap K} {hdr : Addr}
    {t : BinaryTree (Cell K)} (F : Focus h hdr [] t) (hkeys : NonNull (inorder t)) (key : Option K)
    {as cs : List (Cell K)} {fuel : Nat} (hsplit : inorderFrom .left t = as ++ cs)
    (hfuel : cs.length < fuel) (hsize : t.numNodes < 2 ^ 64) :
    searchLeft cmp h key fuel (firstAddr cs) (BitVec.ofNat 64 cs.length) =
      some (BitVec.ofNat 64 ((cs.map Cell.key).dropWhile (equalTo cmp key)).length) := by
  -- on what is left of the sequence: its length is the position of the node before it
  induction cs generalizing as fuel with
  | nil =>
    obtain ⟨fuel, rfl⟩ : ∃ n, fuel = n + 1 := ⟨fuel - 1, by omega⟩
    rfl
  | cons c cs ih =>
    rw [List.length_cons] at hfuel
    obtain ⟨fuel, rfl⟩ : ∃ n, fuel = n + 1 := ⟨fuel - 1, by omega⟩
    obtain ⟨hprev, n, hn, hkey⟩ := neighbour_split .left F hkeys hsplit
    have hlen := congrArg List.length hsplit
    rw [inorderFrom_length, List.length_append, List.length_cons] at hlen
    have hpos : 0 < BitVec.ofNat 64 (c :: cs).length := by
      rw [BitVec.lt_def, List.length_cons, toNat_ofNat_small (by omega)]
      exact Nat.succ_pos _
    show searchLeft cmp h key (fuel + 1) (some c.addr) _ = _
    rw [searchLeft, if_pos hpos]
    simp only [load_some, hn, hkey, Option.bind_eq_bind, Option.bind_some, List.map_cons,
      List.dropWhile_cons, equalTo, decide_eq_true_eq]
    split
    · have hsplit' : inorderFrom .left t = (as ++ [c]) ++ cs := by simpa using hsplit
      have hrest := ih hsplit' (by omega : cs.length < fuel)
      have hprev : avlGetPrev h (some c.addr) = some (firstAddr cs) := hprev
      rw [hprev, Option.bind_some, List.length_cons]
      rw [show BitVec.ofNat 64 (cs.length + 1) - 1 = BitVec.ofNat 64 cs.length from ofNat_add_sub 64 _ 1]
      exact hrest
    · rw [List.length_cons, List.length_cons, List.length_map]

/-- How many equal keys "search right" passes from position `j`: the check against the
length may stop it. -/
def passed (cmp : Option K → Option K → Int) (key : Option K) (length : BitVec 32) (j : Nat)
    (ks : List (Option K)) : Nat :=
  min (ks.takeWhile (equalTo cmp key)).length (length.toNat + 1 - j)

theorem searchRight_spec (cmp : Option K → Option K → Int) {h : Heap K} {hdr : Addr}
    {t : BinaryTree (Cell K)} (F : Focus h hdr [] t) (hkeys : NonNull (inorder t)) (length : BitVec 32)
    (key : Option K) {as cs : List (Cell K)} {fuel : Nat} {j : Nat} (hsplit : inorder t = as ++ cs)
    (hfuel : cs.length < fuel) (hsize : j + cs.length < 2 ^ 64) :
    searchRight cmp h length key fuel (firstAddr cs) (BitVec.ofNat 64 j) =
      some (BitVec.ofNat 64 (j + passed cmp key length j (cs.map Cell.key))) := by
  induction cs generalizing as fuel j with
  | nil =>
    obtain ⟨fuel, rfl⟩ : ∃ n, fuel = n + 1 := ⟨fuel - 1, by omega⟩
    simp [firstAddr, searchRight, passed]
  | cons c cs ih =>
    rw [List.length_cons] at hfuel hsize
    obtain ⟨fuel, rfl⟩ : ∃ n, fuel = n + 1 := ⟨fuel - 1, by omega⟩
    obtain ⟨hnext, n, hn, hkey⟩ := neighbour_split .right F hkeys hsplit
    have hle : BitVec.ofNat 64 j ≤ length.setWidth 64 ↔ j ≤ length.toNat := by
      have := length.isLt
      rw [BitVec.le_def, BitVec.toNat_ofNat, BitVec.toNat_setWidth, Nat.mod_eq_of_lt (by omega),
        Nat.mod_eq_of_lt (by omega)]
    show searchRight cmp h length key (fuel + 1) (some c.addr) _ = _
    rw [searchRight, if_congr hle rfl rfl]
    simp only [load_some, hn, hkey, Option.bind_eq_bind, Option.bind_some, List.map_cons, passed,
      List.takeWhile_cons, equalTo, decide_eq_true_eq]
    split
    · rename_i hj
      split
      · have hsplit' : inorder t = (as ++ [c]) ++ cs := by simpa using hsplit
        have hrest := ih hsplit' (by omega : cs.length < fuel) (by omega : j + 1 + cs.length < 2 ^ 64)
        have hnext : avlGetNext h (some c.addr) = some (firstAddr cs) := hnext
        rw [hnext, Option.bind_some]
        rw [show BitVec.ofNat 64 j + 1 = BitVec.ofNat 64 (j + 1) from (BitVec.ofNat_add ..).symm, hrest]
        congr 2
        simp only [passed, List.length_cons]
        show _ = j + min ((cs.map Cell.key).takeWhile (equalTo cmp key)).length.succ _
        omega
      · simp
    · rename_i hj
      rw [show length.toNat + 1 - j = 0 by omega, Nat.min_zero, Nat.add_zero]

/-! The ends of a span. -/

/-- A state whose positions can be computed: exact ranks, ordered and non-NULL keys. -/
structure Indexed (cmp : Option K → Option K → Int) (ob : AvlState K) (t : BinaryTree (Cell K)) :
    Prop where
  sound : Sound ob t
  compare : ob.tree.compareFun = cmp
  ordered : Ordered cmp (keys t)
  nonNull : NonNull (inorder t)
  exact : LeftSizes RankExact t

section
variable {cmp : Option K → Option K → Int} {ob : AvlState K} {t : BinaryTree (Cell K)}

theorem Indexed.numNodes_lt (I : Indexed cmp ob t) : t.numNodes < 2 ^ 37 :=
  numNodes_lt_of_leftSizes I.sound.balanced (exact_small I.exact)

/-- The low end: where the keys stop being smaller. -/
theorem Indexed.spanLow_spec (I : Indexed cmp ob t) (hcmp : TotalPreorder cmp) (k : Option K) {n : Nat}
    {found : Option (Cell K)} (h : locate cmp k t = (n, found)) :
    ∃ low, spanLow ob k (found.map Cell.addr) (foundIndex n found) = some (BitVec.ofNat 64 low) ∧
      low ≤ t.numNodes ∧ CutAt (fun e => 0 < cmp k e) (keys t) low := by
  have hsize := I.numNodes_lt
  have hord := I.ordered
  cases found with
  | none =>
    obtain ⟨_, as, bs, hsplit, hlen, has, hbs⟩ := locate_absent hcmp hord h
    have hcut := cutAt_append (P := fun e => 0 < cmp k e) has fun e he => by
      have := hbs e he
      omega
    refine ⟨n, ?_, ?_, ?_⟩
    · show some (BitVec.ofNat 64 n - 1 + 1) = _
      rw [BitVec.sub_add_cancel]
    · rw [← keys_length, hsplit, List.length_append]
      omega
    · rw [hsplit, ← hlen]
      exact hcut
  | some c =>
    obtain ⟨hc, as, bs, hsplit, hlen⟩ := locate_found h
    have hkeys : keys t = as.map Cell.key ++ c.key :: bs.map Cell.key := by simp [keys, hsplit]
    have hback : inorderFrom .left t = bs.reverse ++ c :: as.reverse := by
      simp [inorderFrom, hsplit]
    have hcount := congrArg List.length hsplit
    rw [inorder_length, List.length_append, List.length_cons] at hcount
    have F := I.sound.holds.focus
    have hprev : avlGetPrev ob.heap (some c.addr) = some (firstAddr as.reverse) :=
      (neighbour_split .left F I.nonNull hback).1
    have hback' : inorderFrom .left t = (bs.reverse ++ [c]) ++ as.reverse := by simp [hback]
    have hnodes := F.size_lt
    rw [plug_nil] at hnodes
    have hwalk := searchLeft_spec cmp F I.nonNull k hback'
      (by rw [List.length_reverse]; omega : as.reverse.length < ob.heap.next + 1) (by omega)
    rw [List.length_reverse, hlen] at hwalk
    refine ⟨((as.reverse.map Cell.key).dropWhile (equalTo cmp k)).length, ?_, ?_, ?_⟩
    · simp only [Option.map_some, spanLow, foundIndex, hprev, Option.bind_eq_bind, Option.bind_some,
        I.compare]
      exact hwalk
    · have hdrop := (List.dropWhile_sublist (equalTo cmp k) (l := as.reverse.map Cell.key)).length_le
      rw [List.length_map, List.length_reverse] at hdrop
      omega
    · rw [hkeys] at hord ⊢
      rw [List.map_reverse]
      exact hord.cut_left hcmp hc

/-- The high end for an absent key: where the keys start being larger. -/
theorem Indexed.spanHigh_absent (I : Indexed cmp ob t) (hcmp : TotalPreorder cmp) (k : Option K) {n : Nat}
    (h : locate cmp k t = (n, none)) :
    spanHigh ob k none (foundIndex n (none : Option (Cell K))) = some (BitVec.ofNat 64 n) ∧ n ≤ t.numNodes ∧
      CutAt (fun e => 0 ≤ cmp k e) (keys t) n := by
  obtain ⟨_, as, bs, hsplit, hlen, has, hbs⟩ := locate_absent hcmp I.ordered h
  have hcut := cutAt_append (P := fun e => 0 ≤ cmp k e) (fun e he => (has e he).le) fun e he => by
    have := hbs e he
    omega
  refine ⟨?_, ?_, ?_⟩
  · show some (BitVec.ofNat 64 n - 1 + 1) = _
    rw [BitVec.sub_add_cancel]
  · rw [← keys_length, hsplit, List.length_append]
    omega
  · rw [hsplit, ← hlen]
    exact hcut

/-- The high end for a key found at position `n`: the walk starts among the keys `ks` that
follow, and the last equal key is as many positions behind `n` as there are equal ones. -/
theorem Indexed.spanHigh_found (I : Indexed cmp ob t) (hcmp : TotalPreorder cmp) (k : Option K) {n : Nat}
    {c : Cell K} (h : locate cmp k t = (n, some c)) :
    ∃ ks, spanHigh ob k (some c.addr) (BitVec.ofNat 64 n) =
        some (BitVec.ofNat 64 (n + passed cmp k ob.tree.length n ks)) ∧
      n + (ks.takeWhile (equalTo cmp k)).length + 1 ≤ t.numNodes ∧
      CutAt (fun e => 0 ≤ cmp k e) (keys t) (n + (ks.takeWhile (equalTo cmp k)).length + 1) ∧
      ∃ e, (keys t)[n + (ks.takeWhile (equalTo cmp k)).length]? = some e ∧ cmp k e = 0 := by
  have hsize := I.numNodes_lt
  have hord := I.ordered
  obtain ⟨hc, as, bs, hsplit, hlen⟩ := locate_found h
  have hkeys : keys t = as.map Cell.key ++ c.key :: bs.map Cell.key := by simp [keys, hsplit]
  have hcount := congrArg List.length hsplit
  rw [inorder_length, List.length_append, List.length_cons] at hcount
  have F := I.sound.holds.focus
  have hnext : avlGetNext ob.heap (some c.addr) = some (firstAddr bs) :=
    (neighbour_split .right F I.nonNull hsplit).1
  have hsplit' : inorder t = (as ++ [c]) ++ bs := by simp [hsplit]
  have hnodes := F.size_lt
  rw [plug_nil] at hnodes
  have hwalk := searchRight_spec cmp F I.nonNull ob.tree.length k hsplit'
    (by omega : bs.length < ob.heap.next + 1) (by omega : n + bs.length < 2 ^ 64)
  have htake := (List.takeWhile_sublist (equalTo cmp k) (l := bs.map Cell.key)).length_le
  rw [List.length_map] at htake
  rw [hkeys] at hord ⊢
  have hcut := hord.cut_right hcmp hc
  rw [List.length_map, hlen] at hcut
  refine ⟨bs.map Cell.key, ?_, by omega, hcut, ?_⟩
  · simp only [spanHigh, hnext, Option.bind_eq_bind, Option.bind_some, I.compare]
    exact hwalk
  · -- the last equal key lies between the two cuts
    have hleft := hord.cut_left hcmp hc
    have hdrop := (List.dropWhile_sublist (equalTo cmp k) (l := (as.map Cell.key).reverse)).length_le
    rw [List.length_reverse, List.length_map] at hdrop
    have hlist : n + ((bs.map Cell.key).takeWhile (equalTo cmp k)).length <
        (as.map Cell.key ++ c.key :: bs.map Cell.key).length := by
      simp only [List.length_append, List.length_cons, List.length_map]
      omega
    refine ⟨_, List.getElem?_eq_getElem hlist, ?_⟩
    have hge := (hcut _ _ (List.getElem?_eq_getElem hlist)).mpr (Nat.lt_succ_self _)
    have hle := mt (hleft _ _ (List.getElem?_eq_getElem hlist)).mp (by omega)
    omega

theorem Indexed.getByIndex (I : Indexed cmp ob t) (i : BitVec 64) :
    avlGetByIndex ob i = some (keys t)[i.toNat]? :=
  avlGetByIndex_ranked I.sound (exact_ranked I.exact) (exact_small I.exact) i

/-- The positions between two cuts are those of the keys between the two keys. -/
theorem Indexed.between (I : Indexed cmp ob t) {lo hi : Option K} {low high : Nat}
    (hl : CutAt (fun e => 0 < cmp lo e) (keys t) low) (hlow : low ≤ t.numNodes)
    (hh : CutAt (fun e => 0 ≤ cmp hi e) (keys t) high) (hhigh : high ≤ t.numNodes) (i : BitVec 64) :
    BitVec.ofNat 64 low ≤ i ∧ i < BitVec.ofNat 64 high ↔
      ∃ e, avlGetByIndex ob i = some (some e) ∧ cmp lo e ≤ 0 ∧ 0 ≤ cmp hi e := by
  have hsize := I.numNodes_lt
  rw [I.getByIndex, BitVec.le_def, BitVec.lt_def, BitVec.toNat_ofNat, BitVec.toNat_ofNat,
    Nat.mod_eq_of_lt (by omega), Nat.mod_eq_of_lt (by omega)]
  constructor
  · rintro ⟨hli, hih⟩
    have hlen : i.toNat < (keys t).length := by
      rw [keys_length]
      omega
    have he := List.getElem?_eq_getElem hlen
    have hlo := mt (hl _ _ he).mp (by omega)
    exact ⟨_, congrArg some he, by omega, (hh _ _ he).mpr hih⟩
  · rintro ⟨e, he, hlo, hhi⟩
    have he := Option.some.inj he
    have hli := mt (hl _ _ he).mpr (by omega)
    exact ⟨by omega, (hh _ _ he).mp hhi⟩

end

/-- After every run with non-NULL keys the positions of a tree with exact ranks can be
computed. -/
theorem callsNew_indexed {cmp : Option K → Option K → Int} (hcmp : TotalPreorder cmp)
    (calls : List (Call K)) (hcalls : ∀ key, Call.insert true key ∈ calls → key ≠ none) :
    ∃ codes ob t, callsNew cmp calls = some (codes, ob) ∧ Holds ob 0 t ∧
      (LeftSizes RankExact t → Indexed cmp ob t) := by
  obtain ⟨codes, ob, t, e, S, hc, hord, hnull⟩ :=
    callsNew_keys hcmp calls (fun key => key ≠ none) hcalls
  exact ⟨codes, ob, t, e, S.holds, fun hexact => ⟨S, hc, hord, nonNull_of_keys hnull, hexact⟩⟩

/-- An operation as a call with memory. -/
def Op.call : Op K → Call K
  | .insert key => .insert true key
  | .delete freeKeyFun key => .delete freeKeyFun key

theorem runCalls_call (ops : List (Op K)) (ob : AvlState K) :
    runCalls callStep (ops.map Op.call) ob = run ops ob := by
  induction ops generalizing ob with
  | nil => rfl
  | cons op ops ih =>
    have hstep : callStep op.call ob = apply ob op := by cases op <;> rfl
    simp only [List.map_cons, runCalls, run, hstep, ih]

/-- Successful calls leave exact ranks as long as the left subtrees are small. -/
theorem exact_of_success {cmp : Option K → Option K → Int} (ops : List (Op K)) {codes : List Int}
    {ob : AvlState K} {t : BinaryTree (Cell K)} (hrun : callsNew cmp (ops.map Op.call) = some (codes, ob))
    (hok : ∀ c ∈ codes, c = 0) (H : Holds ob 0 t) (hsmall : LeftSizes (fun _ n => n + 1 < 2 ^ 30) t) :
    LeftSizes RankExact t := by
  have hrun' : runNew cmp ops = some (codes, ob) := by
    rw [← hrun, runNew, callsNew]
    simp only [runCalls_call]
  obtain ⟨t', S, hranked, _⟩ := runNew_keys cmp ops hrun'
  obtain rfl := S.holds.unique H
  exact ranked_exact (hranked hok) hsmall

/-! One key. -/

/-- The span that `avl_get_span_by_key` returns has exactly the keys equal to `k`. -/
def SpanOfKey (cmp : Option K → Option K → Int) (ob : AvlState K) (k : Option K) : Prop :=
  ∃ low high, avlGetSpanByKey ob k = some (0, low, high) ∧
    ∀ i, low ≤ i ∧ i < high ↔ ∃ e, avlGetByIndex ob i = some (some e) ∧ cmp k e = 0

/-- What `avl_get_span_by_key` returns for a key found at position `n`: the high end is
behind the last equal key that the walk to the right passes. -/
theorem Indexed.spanByKey_found {cmp : Option K → Option K → Int} {ob : AvlState K}
    {t : BinaryTree (Cell K)} (I : Indexed cmp ob t) (hcmp : TotalPreorder cmp) {k : Option K} {n : Nat}
    {c : Cell K} (hloc : locate cmp k t = (n, some c)) :
    ∃ low ks, avlGetSpanByKey ob k = some (0, BitVec.ofNat 64 low,
        BitVec.ofNat 64 (n + passed cmp k ob.tree.length n ks + 1)) ∧
      low ≤ t.numNodes ∧ CutAt (fun e => 0 < cmp k e) (keys t) low ∧
      n + (ks.takeWhile (equalTo cmp k)).length + 1 ≤ t.numNodes ∧
      CutAt (fun e => 0 ≤ cmp k e) (keys t) (n + (ks.takeWhile (equalTo cmp k)).length + 1) := by
  have hne : t ≠ nil := by
    rintro rfl
    simp [locate] at hloc
  have hindex := avlGetIndexByKey_spec I.sound.holds I.exact hne k
  rw [I.compare, hloc] at hindex
  obtain ⟨low, hlow, hlowN, hcutlow⟩ := I.spanLow_spec hcmp k hloc
  obtain ⟨ks, hhigh, hhighN, hcuthigh, _⟩ := I.spanHigh_found hcmp k hloc
  refine ⟨low, ks, ?_, hlowN, hcutlow, hhighN, hcuthigh⟩
  simp only [spanLow, Option.map_some, foundIndex, Option.bind_eq_bind] at hlow
  simp only [spanHigh, Option.bind_eq_bind] at hhigh
  obtain ⟨left, hprev, hleft⟩ := Option.bind_eq_some_iff.mp hlow
  obtain ⟨right, hnext, hright⟩ := Option.bind_eq_some_iff.mp hhigh
  simp only [avlGetSpanByKey, hindex, Option.map_some, foundIndex, Option.bind_eq_bind,
    Option.bind_some, hprev, hleft, hnext, hright]
  rw [BitVec.ofNat_add (n + _) 1]
  rfl

/-- The span is right when the walk to the right passes every equal key, as it does as long
as the length has not wrapped. -/
theorem Indexed.spanOfKey {cmp : Option K → Option K → Int} {ob : AvlState K}
    {t : BinaryTree (Cell K)} (I : Indexed cmp ob t) (hcmp : TotalPreorder cmp)
    (hsize : t.numNodes < 2 ^ 32) {k : Option K} (hk : ∃ e ∈ keys t, cmp k e = 0) :
    SpanOfKey cmp ob k := by
  obtain ⟨x, hx, hkx⟩ := hk
  cases hloc : locate cmp k t with
  | mk n found =>
    cases found with
    | none => exact absurd hkx ((locate_absent hcmp I.ordered hloc).1 x hx)
    | some c =>
      obtain ⟨low, ks, hspan, hlow, hcutlow, hhigh, hcuthigh⟩ := I.spanByKey_found hcmp hloc
      have hpassed : passed cmp k ob.tree.length n ks = (ks.takeWhile (equalTo cmp k)).length := by
        rw [passed, I.sound.length, toNat_ofNat_small hsize]
        omega
      rw [hpassed] at hspan
      refine ⟨_, _, hspan, fun i => ?_⟩
      rw [I.between hcutlow hlow hcuthigh hhigh]
      refine exists_congr fun e => and_congr_right fun _ => ?_
      omega

/-- A walk stopped by the length leaves the last equal key out. -/
theorem Indexed.not_spanOfKey {cmp : Option K → Option K → Int} {ob : AvlState K}
    {t : BinaryTree (Cell K)} (I : Indexed cmp ob t) (hcmp : TotalPreorder cmp) {k : Option K} {n : Nat}
    {c : Cell K} (hloc : locate cmp k t = (n, some c)) (hlen : ob.tree.length.toNat < n)
    {e : Option K} (he : (keys t)[n + 1]? = some e) (hke : cmp k e = 0) : ¬ SpanOfKey cmp ob k := by
  rintro ⟨low', high', hspan', hiff⟩
  have hsize := I.numNodes_lt
  obtain ⟨low, ks, hspan, _⟩ := I.spanByKey_found hcmp hloc
  have hpassed : passed cmp k ob.tree.length n ks = 0 := by
    rw [passed]
    omega
  rw [hpassed] at hspan
  obtain ⟨rfl, rfl⟩ : low' = _ ∧ high' = _ := by
    rw [hspan'] at hspan
    simpa using hspan
  have hn : n + 1 < t.numNodes := by
    rw [← keys_length]
    exact (List.getElem?_eq_some_iff.mp he).1
  have hlast := (hiff (BitVec.ofNat 64 (n + 1))).mpr ⟨e, ?_, hke⟩
  · have hlt := hlast.2
    rw [BitVec.lt_def] at hlt
    exact absurd hlt (Nat.lt_irrefl _)
  · rw [I.getByIndex, toNat_ofNat_small (by omega), he]

/-! Two keys. -/

/-- The smaller and the larger of two keys, as the code orders them. -/
def smaller (cmp : Option K → Option K → Int) (a b : Option K) : Option K := if 0 < cmp a b then b else a
def larger (cmp : Option K → Option K → Int) (a b : Option K) : Option K := if 0 < cmp a b then a else b

/-- The span that `avl_get_span_by_two_keys` returns lies in the tree and has exactly the
keys between the two keys; for one present key it is the span of that key. -/
def SpanOfTwoKeys (cmp : Option K → Option K → Int) (ob : AvlState K) (s : List (Option K))
    (k₁ k₂ : Option K) : Prop :=
  (∃ low high, avlGetSpanByTwoKeys ob k₁ k₂ = some (0, low, high) ∧ low ≤ high ∧
    high.toNat ≤ s.length ∧
    ∀ i, low ≤ i ∧ i < high ↔ ∃ e, avlGetByIndex ob i = some (some e) ∧
      cmp (smaller cmp k₁ k₂) e ≤ 0 ∧ cmp e (larger cmp k₁ k₂) ≤ 0) ∧
  (k₁ = k₂ → (∃ e ∈ s, cmp k₁ e = 0) → avlGetSpanByTwoKeys ob k₁ k₂ = avlGetSpanByKey ob k₁)

theorem smaller_le_larger {cmp : Option K → Option K → Int} (hcmp : TotalPreorder cmp) (a b : Option K) :
    cmp (smaller cmp a b) (larger cmp a b) ≤ 0 := by
  have := hcmp.swap b a
  rw [smaller, larger]
  split <;> omega

theorem avlGetSpanByTwoKeys_eq {cmp : Option K → Option K → Int} {ob : AvlState K}
    {t : BinaryTree (Cell K)} (I : Indexed cmp ob t) (hne : t ≠ nil) (k₁ k₂ : Option K) {m n : Nat}
    {lowFound highFound : Option (Cell K)} (hlow : locate cmp (smaller cmp k₁ k₂) t = (m, lowFound))
    (hhigh : locate cmp (larger cmp k₁ k₂) t = (n, highFound)) :
    avlGetSpanByTwoKeys ob k₁ k₂ = (do
      let i ← spanLow ob (smaller cmp k₁ k₂) (lowFound.map Cell.addr) (foundIndex m lowFound)
      let j ← spanHigh ob (larger cmp k₁ k₂) (highFound.map Cell.addr) (foundIndex n highFound)
      some (0, i, j)) := by
  have hindex := avlGetIndexByKey_spec I.sound.holds I.exact hne
  rw [I.compare] at hindex
  have hswap : (if 0 < cmp k₁ k₂ then (k₂, k₁) else (k₁, k₂)) = (smaller cmp k₁ k₂, larger cmp k₁ k₂) := by
    rw [smaller, larger]
    split <;> rfl
  simp only [avlGetSpanByTwoKeys, I.compare, hswap, hindex, hlow, hhigh, Option.bind_eq_bind,
    Option.bind_some]

/-- The cut below one key is not behind the cut above a key that is not smaller. -/
theorem cuts_ordered {cmp : Option K → Option K → Int} (hcmp : TotalPreorder cmp) {lo hi : Option K}
    (hle : cmp lo hi ≤ 0) {s : List (Option K)} {low high : Nat}
    (hl : CutAt (fun e => 0 < cmp lo e) s low) (hlow : low ≤ s.length)
    (hh : CutAt (fun e => 0 ≤ cmp hi e) s high) : low ≤ high := by
  by_contra hgt
  have hlt : high < s.length := by omega
  have he := List.getElem?_eq_getElem hlt
  have hlo := (hl _ _ he).mpr (by omega)
  have hhi := mt (hh _ _ he).mp (Nat.lt_irrefl high)
  have hafter : cmp hi s[high] ≤ 0 := by omega
  have := hcmp.trans lo hi _ hle hafter
  omega

theorem zero_le_swap {cmp : Option K → Option K → Int} (hcmp : TotalPreorder cmp) (a b : Option K) :
    0 ≤ cmp a b ↔ cmp b a ≤ 0 := by
  have := hcmp.swap a b
  omega

/-- With the larger key absent the span is right. -/
theorem Indexed.spanOfTwoKeys_absent {cmp : Option K → Option K → Int} {ob : AvlState K}
    {t : BinaryTree (Cell K)} (I : Indexed cmp ob t) (hcmp : TotalPreorder cmp) (hne : t ≠ nil)
    {k₁ k₂ : Option K} {n : Nat} (hn : locate cmp (larger cmp k₁ k₂) t = (n, none)) :
    SpanOfTwoKeys cmp ob (keys t) k₁ k₂ := by
  have hsize := I.numNodes_lt
  cases hm : locate cmp (smaller cmp k₁ k₂) t with
  | mk m lowFound =>
  obtain ⟨low, hlow, hlowN, hcutlow⟩ := I.spanLow_spec hcmp _ hm
  obtain ⟨hhigh, hhighN, hcuthigh⟩ := I.spanHigh_absent hcmp _ hn
  have hends := cuts_ordered hcmp (smaller_le_larger hcmp k₁ k₂) hcutlow (by rwa [keys_length]) hcuthigh
  refine ⟨⟨BitVec.ofNat 64 low, BitVec.ofNat 64 n, ?_, ?_, ?_, ?_⟩, ?_⟩
  · simp only [avlGetSpanByTwoKeys_eq I hne k₁ k₂ hm hn, Option.map_none, hlow, hhigh, Option.bind_eq_bind,
      Option.bind_some]
  · rw [BitVec.le_def, toNat_ofNat_small (by omega), toNat_ofNat_small (by omega)]
    exact hends
  · rw [toNat_ofNat_small (by omega), keys_length]
    exact hhighN
  · intro i
    rw [I.between hcutlow hlowN hcuthigh hhighN]
    exact exists_congr fun e => and_congr_right fun _ => and_congr_right fun _ => zero_le_swap hcmp _ e
  · rintro rfl ⟨e, he, hk⟩
    have hsame : larger cmp k₁ k₁ = k₁ := by
      rw [larger]
      split <;> rfl
    rw [hsame] at hn
    exact absurd hk ((locate_absent hcmp I.ordered hn).1 e he)

/-- With the larger key present its last equal key is between the two keys, but not before the
high end. -/
theorem Indexed.not_spanOfTwoKeys {cmp : Option K → Option K → Int} {ob : AvlState K}
    {t : BinaryTree (Cell K)} (I : Indexed cmp ob t) (hcmp : TotalPreorder cmp) (hne : t ≠ nil)
    {k₁ k₂ : Option K} {n : Nat} {c : Cell K} (hn : locate cmp (larger cmp k₁ k₂) t = (n, some c)) :
    ¬ SpanOfTwoKeys cmp ob (keys t) k₁ k₂ := by
  rintro ⟨⟨low', high', hspan, _, _, hiff⟩, _⟩
  have hsize := I.numNodes_lt
  cases hm : locate cmp (smaller cmp k₁ k₂) t with
  | mk m lowFound =>
  obtain ⟨low, hlow, -, -⟩ := I.spanLow_spec hcmp _ hm
  obtain ⟨ks, hhigh, hhighN, _, x, hx, hkx⟩ := I.spanHigh_found hcmp _ hn
  have hspan' : avlGetSpanByTwoKeys ob k₁ k₂ = some (0, BitVec.ofNat 64 low,
      BitVec.ofNat 64 (n + passed cmp (larger cmp k₁ k₂) ob.tree.length n ks)) := by
    rw [avlGetSpanByTwoKeys_eq I hne k₁ k₂ hm hn, hlow]
    show (spanHigh ob _ (some c.addr) (BitVec.ofNat 64 n)).bind _ = _
    rw [hhigh]
    rfl
  obtain ⟨rfl, rfl⟩ : low' = _ ∧ high' = _ := by
    rw [hspan] at hspan'
    simpa using hspan'
  have hlast := (hiff (BitVec.ofNat 64 (n + (ks.takeWhile (equalTo cmp (larger cmp k₁ k₂))).length))).mpr
    ⟨x, ?_, ?_, ?_⟩
  · have hlt := hlast.2
    have hmin : passed cmp (larger cmp k₁ k₂) ob.tree.length n ks ≤
        (ks.takeWhile (equalTo cmp (larger cmp k₁ k₂))).length := Nat.min_le_left _ _
    rw [BitVec.lt_def, toNat_ofNat_small (by omega), toNat_ofNat_small (by omega)] at hlt
    omega
  · rw [I.getByIndex, toNat_ofNat_small (by omega), hx]
  · exact hcmp.trans _ _ _ (smaller_le_larger hcmp k₁ k₂) (by omega)
  · exact (zero_le_swap hcmp _ x).mp (by omega)

/-- The two-key span is right exactly when the larger key is absent: its last equal key is
left out otherwise. -/
theorem Indexed.spanOfTwoKeys {cmp : Option K → Option K → Int} {ob : AvlState K}
    {t : BinaryTree (Cell K)} (I : Indexed cmp ob t) (hcmp : TotalPreorder cmp) (hne : t ≠ nil)
    (k₁ k₂ : Option K) :
    SpanOfTwoKeys cmp ob (keys t) k₁ k₂ ↔ ∀ e ∈ keys t, cmp (larger cmp k₁ k₂) e ≠ 0 := by
  cases hn : locate cmp (larger cmp k₁ k₂) t with
  | mk n found =>
    cases found with
    | none =>
      have habsent := (locate_absent hcmp I.ordered hn).1
      exact ⟨fun _ => habsent, fun _ => I.spanOfTwoKeys_absent hcmp hne hn⟩
    | some c =>
      obtain ⟨_, _, _, _, x, hx, hkx⟩ := I.spanHigh_found hcmp _ hn
      have hpresent : ¬ ∀ e ∈ keys t, cmp (larger cmp k₁ k₂) e ≠ 0 :=
        fun habsent => habsent x (List.mem_of_getElem? hx) hkx
      exact iff_of_false (I.not_spanOfTwoKeys hcmp hne hn) hpresent

/-- The insertions of 1 and 2. -/
def insertInts : List (Op Int) := [.insert (some 1), .insert (some 2)]

theorem insertInts_nonNull : ∀ key, Call.insert true key ∈ insertInts.map Op.call → key ≠ none := by
  intro key hkey
  simp only [insertInts, Op.call, List.map_cons, List.map_nil, List.mem_cons, Call.insert.injEq,
    true_and, List.not_mem_nil, or_false] at hkey
  rcases hkey with rfl | rfl <;> simp

theorem insertInts_run {codes : List Int} {ob : AvlState Int} {t : BinaryTree (Cell Int)}
    (hrun : callsNew compareInts (insertInts.map Op.call) = some (codes, ob)) (H : Holds ob 0 t) :
    keys t = [some 1, some 2] ∧ LeftSizes RankExact t := by
  obtain ⟨rfl, hseq⟩ : codes = [0, 0] ∧ ob.sequence = some [some 1, some 2] := by
    have hresult : (callsNew compareInts (insertInts.map Op.call)).map (fun r => (r.1, r.2.sequence)) =
        some ([0, 0], some [some 1, some 2]) := by decide
    rw [hrun] at hresult
    simpa using hresult
  have hkeys : keys t = [some 1, some 2] := Option.some.inj (H.sequence.symm.trans hseq)
  have hcount : t.numNodes = 2 := by rw [← keys_length, hkeys]; rfl
  exact ⟨hkeys, exact_of_success insertInts hrun (by simp) H (leftSizes_lt (by omega))⟩

/-- After every run with non-NULL keys, with exact ranks and at least one key: the two-key
span is right exactly when no stored key equals the larger key. -/
theorem span_by_two_keys {cmp : Option K → Option K → Int} (hcmp : TotalPreorder cmp)
    (calls : List (Call K)) (hcalls : ∀ key, Call.insert true key ∈ calls → key ≠ none) :
    ∃ codes ob t, callsNew cmp calls = some (codes, ob) ∧ Holds ob 0 t ∧
      (LeftSizes RankExact t → t ≠ nil → ∀ k₁ k₂,
        (SpanOfTwoKeys cmp ob (keys t) k₁ k₂ ↔ ∀ e ∈ keys t, cmp (larger cmp k₁ k₂) e ≠ 0)) := by
  obtain ⟨codes, ob, t, e, H, hI⟩ := callsNew_indexed hcmp calls hcalls
  exact ⟨codes, ob, t, e, H, fun hexact hne k₁ k₂ => (hI hexact).spanOfTwoKeys hcmp hne k₁ k₂⟩

theorem span_by_two_keys_ints : ∃ codes ob t,
    callsNew compareInts (insertInts.map Op.call) = some (codes, ob) ∧ Holds ob 0 t ∧
      SpanOfTwoKeys compareInts ob (keys t) (some 3) (some 1) := by
  obtain ⟨codes, ob, t, e, H, h⟩ :=
    span_by_two_keys compareInts_totalPreorder (insertInts.map Op.call) insertInts_nonNull
  obtain ⟨hkeys, hexact⟩ := insertInts_run e H
  have hne : t ≠ nil := by
    rintro rfl
    simp [keys] at hkeys
  refine ⟨codes, ob, t, e, H, (h hexact hne (some 3) (some 1)).mpr ?_⟩
  intro x hx
  rw [hkeys] at hx
  simp only [List.mem_cons, List.not_mem_nil, or_false] at hx
  rcases hx with rfl | rfl <;> decide

/-- In the tree of 1 and 2 the span from 1 to 2 has the key 1 only. -/
theorem span_by_two_keys_fails : TotalPreorder compareInts ∧ ∃ codes ob t,
    callsNew compareInts (insertInts.map Op.call) = some (codes, ob) ∧ Holds ob 0 t ∧
      LeftSizes RankExact t ∧ keys t = [some 1, some 2] ∧
      avlGetSpanByTwoKeys ob (some 1) (some 2) = some (0, 0, 1) ∧
      ¬ SpanOfTwoKeys compareInts ob (keys t) (some 1) (some 2) := by
  obtain ⟨codes, ob, t, e, H, hI⟩ :=
    callsNew_indexed compareInts_totalPreorder (insertInts.map Op.call) insertInts_nonNull
  obtain ⟨hkeys, hexact⟩ := insertInts_run e H
  have hne : t ≠ nil := by
    rintro rfl
    simp [keys] at hkeys
  have hspan : (callsNew compareInts (insertInts.map Op.call)).bind
      (fun r => avlGetSpanByTwoKeys r.2 (some 1) (some 2)) = some (0, 0, 1) := by decide
  rw [e] at hspan
  refine ⟨compareInts_totalPreorder, codes, ob, t, e, H, hexact, hkeys, hspan, ?_⟩
  rw [(hI hexact).spanOfTwoKeys compareInts_totalPreorder hne]
  intro habsent
  exact habsent (some 2) (by simp [hkeys]) (by decide)

/-! Ranges of positions. -/

/-- No node has rank zero: the descent runs into NULL. -/
theorem findByRank_zero {h : Heap K} {fuel : Nat} {par : Ptr} {t : BinaryTree (Cell K)} (ht : Rep h par t)
    (hexact : LeftSizes RankExact t) (hsize : t.numNodes < 2 ^ 64) : findByRank h fuel (ptr t) 0 = none := by
  induction fuel generalizing par t with
  | zero => rfl
  | succ fuel ih =>
    cases t with
    | nil => rfl
    | node c l r =>
      have hrank := heap_rank ht
      obtain ⟨hc, hl, _⟩ := ht
      obtain ⟨hrc, hel, _⟩ := hexact
      have hpos : (0 : BitVec 64) < (avlGetRank c.word).setWidth 64 := by
        simp only [numNodes] at hsize
        rw [RankExact.rank_setWidth hrc, BitVec.lt_def, toNat_ofNat_small (by omega)]
        exact Nat.succ_pos _
      simp only [numNodes] at hsize
      rw [ptr_node, findByRank]
      simp only [hrank, load_some, hc, Cell.record, Option.bind_eq_bind, Option.bind_some, if_pos hpos]
      exact ih hl hel (by omega)

theorem findByRank_spec {h : Heap K} {fuel : Nat} {par : Ptr} {t : BinaryTree (Cell K)} (ht : Rep h par t)
    (hexact : LeftSizes RankExact t) (hsize : t.numNodes < 2 ^ 64) (hfuel : t.height < fuel) {m : BitVec 64}
    (hm : 0 < m.toNat) (hmt : m.toNat ≤ t.numNodes) :
    ∃ as c bs, inorder t = as ++ c :: bs ∧ as.length + 1 = m.toNat ∧
      findByRank h fuel (ptr t) m = some (some c.addr) := by
  induction fuel generalizing par t m with
  | zero => simp at hfuel
  | succ fuel ih =>
    cases t with
    | nil => simp at hmt; omega
    | node c l r =>
      have hrank := heap_rank ht
      obtain ⟨hc, hl, hr⟩ := ht
      obtain ⟨hrc, hel, her⟩ := hexact
      simp only [height] at hfuel
      simp only [numNodes] at hsize hmt
      have hrc := RankExact.rank_setWidth hrc
      have hrcn : (BitVec.ofNat 64 (l.numNodes + 1)).toNat = l.numNodes + 1 := by
        rw [toNat_ofNat_small (by omega)]
      rw [ptr_node, findByRank]
      simp only [hrank, load_some, hc, Cell.record, Option.bind_eq_bind, Option.bind_some, hrc,
        BitVec.lt_def, hrcn, inorder_node]
      split
      · obtain ⟨as, d, bs, hsplit, hlen, hfind⟩ := ih hl hel (by omega) (by omega) hm (by omega)
        exact ⟨as, d, bs ++ c :: inorder r, by rw [hsplit]; simp, hlen, hfind⟩
      split
      · have hsub : (m - BitVec.ofNat 64 (l.numNodes + 1)).toNat = m.toNat - (l.numNodes + 1) := by
          rw [BitVec.toNat_sub_of_le (by rw [BitVec.le_def, hrcn]; omega), hrcn]
        obtain ⟨as, d, bs, hsplit, hlen, hfind⟩ :=
          ih hr her (by omega) (by omega) (by rw [hsub]; omega) (by rw [hsub]; omega)
        refine ⟨inorder l ++ c :: as, d, bs, by rw [hsplit]; simp, ?_, hfind⟩
        rw [List.length_append, List.length_cons, inorder_length]
        omega
      · refine ⟨inorder l, c, inorder r, rfl, ?_, rfl⟩
        rw [inorder_length]
        omega

/-- The arguments of the callback: `k` from `high - low - 1` down to 0 with the key at
position `low + k`. -/
def rangeCalls (s : List (Option K)) (low n : Nat) : List (BitVec 64 × Option K) :=
  (List.range n).reverse.map fun k => (BitVec.ofNat 64 k, s[low + k]?.getD none)

theorem rangeCalls_succ (s : List (Option K)) (low n : Nat) :
    rangeCalls s low (n + 1) = (BitVec.ofNat 64 n, s[low + n]?.getD none) :: rangeCalls s low n := by
  simp [rangeCalls, List.range_succ]

theorem iterateBack_spec {iterFun : BitVec 64 → Option K → σ → Int × σ}
    (hzero : ∀ i k s, (iterFun i k s).1 = 0) {h : Heap K} {hdr : Addr} {t : BinaryTree (Cell K)}
    (F : Focus h hdr [] t) (hkeys : NonNull (inorder t)) {low n fuel : Nat} {ps qs : List (Cell K)}
    (hsplit : inorder t = ps ++ qs) (hlen : ps.length = low + n) (hfuel : n < fuel) (hn : n < 2 ^ 64)
    (arg : σ) :
    iterateBack iterFun h fuel (firstAddr ps.reverse) (BitVec.ofNat 64 n) arg =
      some (0, (rangeCalls (keys t) low n).foldl (fun s c => (iterFun c.1 c.2 s).2) arg) := by
  -- on the number of calls left; `ps` is what has not been passed yet
  induction n generalizing fuel ps qs arg with
  | zero =>
    obtain ⟨fuel, rfl⟩ : ∃ n, fuel = n + 1 := ⟨fuel - 1, by omega⟩
    rfl
  | succ n ih =>
    obtain ⟨fuel, rfl⟩ : ∃ n, fuel = n + 1 := ⟨fuel - 1, by omega⟩
    rcases List.eq_nil_or_concat ps with rfl | ⟨ps, c, rfl⟩
    · simp at hlen
    rw [List.concat_eq_append, List.length_append, List.length_singleton] at hlen
    have hsplit : inorder t = ps ++ c :: qs := by simpa using hsplit
    have hback : inorderFrom .left t = qs.reverse ++ c :: ps.reverse := by simp [inorderFrom, hsplit]
    obtain ⟨hprev, r, hr, hkey⟩ := neighbour_split .left F hkeys hback
    have hprev : avlGetPrev h (some c.addr) = some (firstAddr ps.reverse) := hprev
    have hnth : (keys t)[low + n]?.getD none = c.key := by
      have hpos : low + n = (ps.map Cell.key).length := by
        rw [List.length_map]
        omega
      rw [keys, hsplit, List.map_append, List.map_cons, hpos, List.getElem?_append_right (Nat.le_refl _),
        Nat.sub_self]
      rfl
    have hpos : BitVec.ofNat 64 (n + 1) ≠ 0 := by
      intro h0
      have := congrArg BitVec.toNat h0
      rw [toNat_ofNat_small hn] at this
      simp at this
    rw [List.concat_eq_append, List.reverse_append]
    show iterateBack iterFun h (fuel + 1) (some c.addr) _ _ = _
    rw [iterateBack, if_pos hpos, rangeCalls_succ, hnth, List.foldl_cons]
    simp only [load_some, hr, hkey, Option.bind_eq_bind, Option.bind_some, hprev, hzero, ne_eq,
      not_true_eq_false, if_false]
    rw [show BitVec.ofNat 64 (n + 1) - 1 = BitVec.ofNat 64 n from ofNat_add_sub 64 n 1]
    exact ih hsplit (by omega) (by omega) (by omega) _

/-- Iterating over a range returns 0 with the callbacks made. -/
def RangeVisited (ob : AvlState K) (s : List (Option K)) (low high : BitVec 64) : Prop :=
  ∀ (σ : Type) (iterFun : BitVec 64 → Option K → σ → Int × σ), (∀ i k arg, (iterFun i k arg).1 = 0) →
    ∀ arg, avlIterateIndexRange ob iterFun low high arg =
      some (0, (rangeCalls s low.toNat (high.toNat - low.toNat)).foldl
        (fun arg c => (iterFun c.1 c.2 arg).2) arg)

theorem Indexed.iterateIndexRange {cmp : Option K → Option K → Int} {ob : AvlState K}
    {t : BinaryTree (Cell K)} (I : Indexed cmp ob t) {low high : BitVec 64} (hle : low ≤ high)
    (hlen : high.toNat ≤ ob.tree.length.toNat) :
    RangeVisited ob (keys t) low high ↔ 0 < high := by
  have hsize := I.numNodes_lt
  have F := I.sound.holds.focus
  have hnodes := F.size_lt
  rw [plug_nil] at hnodes
  have hcheck : ¬ ob.tree.length.setWidth 64 < high := by
    have := ob.tree.length.isLt
    rw [BitVec.lt_def, BitVec.toNat_setWidth, Nat.mod_eq_of_lt (by omega)]
    omega
  have hhigh : high.toNat ≤ t.numNodes := by
    have hmod : ob.tree.length.toNat ≤ t.numNodes := by
      rw [I.sound.length, BitVec.toNat_ofNat]
      exact Nat.mod_le _ _
    omega
  obtain ⟨w, hw⟩ := I.sound.holds.load_root
  rw [BitVec.le_def] at hle
  constructor
  · intro hvisited
    by_contra hpos
    have h0 : high = 0 := by
      rw [BitVec.lt_def] at hpos
      apply BitVec.eq_of_toNat_eq
      simpa using hpos
    have hrun := hvisited Unit (fun _ _ _ => (0, ())) (fun _ _ _ => rfl) ()
    rw [avlIterateIndexRange, if_neg hcheck] at hrun
    simp only [hw, Option.bind_eq_bind, Option.bind_some, h0,
      findByRank_zero F.tree I.exact (by omega), Option.bind_none] at hrun
    cases hrun
  · intro hpos σ iterFun hzero arg
    obtain ⟨as, c, bs, hsplit, hcount, hfind⟩ := findByRank_spec F.tree I.exact (by omega)
      (Nat.lt_succ_of_lt I.sound.holds.height_lt) (BitVec.lt_def.mp hpos) hhigh
    have hsplit' : inorder t = (as ++ [c]) ++ bs := by simp [hsplit]
    have hback := iterateBack_spec hzero F I.nonNull hsplit'
      (by simp only [List.length_append, List.length_singleton]; omega :
        (as ++ [c]).length = low.toNat + (high.toNat - low.toNat))
      (by omega : high.toNat - low.toNat < ob.heap.next + 1) (by omega) arg
    have hleft : BitVec.ofNat 64 (high.toNat - low.toNat) = high - low := by
      apply BitVec.eq_of_toNat_eq
      rw [BitVec.toNat_sub_of_le hle, toNat_ofNat_small (by omega)]
    rw [List.reverse_append, hleft] at hback
    rw [avlIterateIndexRange, if_neg hcheck]
    simp only [hw, Option.bind_eq_bind, Option.bind_some, hfind]
    exact hback

/-- After every run with non-NULL keys and with exact ranks: the iteration over a range
inside the length is right exactly when its high end is not 0. -/
theorem iterate_index_range {cmp : Option K → Option K → Int} (hcmp : TotalPreorder cmp)
    (calls : List (Call K)) (hcalls : ∀ key, Call.insert true key ∈ calls → key ≠ none) :
    ∃ codes ob t, callsNew cmp calls = some (codes, ob) ∧ Holds ob 0 t ∧
      (LeftSizes RankExact t → ∀ low high, low ≤ high → high.toNat ≤ ob.tree.length.toNat →
        (RangeVisited ob (keys t) low high ↔ 0 < high)) := by
  obtain ⟨codes, ob, t, e, H, hI⟩ := callsNew_indexed hcmp calls hcalls
  exact ⟨codes, ob, t, e, H, fun hexact low high hle hlen => (hI hexact).iterateIndexRange hle hlen⟩

theorem iterate_index_range_ints : ∃ codes ob t,
    callsNew compareInts (insertInts.map Op.call) = some (codes, ob) ∧ Holds ob 0 t ∧
      RangeVisited ob (keys t) 1 2 := by
  obtain ⟨codes, ob, t, e, H, h⟩ :=
    iterate_index_range compareInts_totalPreorder (insertInts.map Op.call) insertInts_nonNull
  have hlen : (callsNew compareInts (insertInts.map Op.call)).map (fun r => r.2.tree.length) = some 2 := by
    decide
  rw [e] at hlen
  have hlen : ob.tree.length = 2 := Option.some.inj hlen
  refine ⟨codes, ob, t, e, H, (h (insertInts_run e H).2 1 2 (by decide) ?_).mpr (by decide)⟩
  rw [hlen]
  decide

/-- The empty range of an empty tree touches NULL. -/
theorem iterate_index_range_fails : ∃ ob, callsNew compareInts [] = some ([], ob) ∧ Holds ob 0 nil ∧
    (∀ arg, avlIterateIndexRange ob (fun _ _ (s : Unit) => (0, s)) 0 0 arg = none) ∧
    ¬ RangeVisited ob [] 0 0 := by
  obtain ⟨ob, e, H, _⟩ := avlTreeNew_spec compareInts
  have hrun : ∀ arg, avlIterateIndexRange ob (fun _ _ (s : Unit) => (0, s)) 0 0 arg = none := by
    intro arg
    obtain ⟨w, hw⟩ := H.load_root
    have hcheck : ¬ ob.tree.length.setWidth 64 < (0 : BitVec 64) := by
      rw [BitVec.lt_def]
      exact Nat.not_lt_zero _
    rw [avlIterateIndexRange, if_neg hcheck]
    simp only [hw, Option.bind_eq_bind, Option.bind_some, ptr_nil]
    rfl
  refine ⟨ob, ?_, H, hrun, ?_⟩
  · rw [callsNew, e]
    rfl
  · intro hvisited
    have h := hvisited Unit (fun _ _ s => (0, s)) (fun _ _ _ => rfl) ()
    rw [hrun] at h
    cases h

end IcecastCommon.Avl
