import IcecastCommon.Avl.Node

/- The operations of `avl.c` on the heap: creation, insertion, deletion and the
   two lookups. Every function returns `none` where the C code would access a
   node through NULL or a dangling pointer. A `while` loop is a function of a
   fuel argument that is also `none` when the fuel runs out; each is started with
   as much fuel as addresses have been handed out, and no loop walks further than
   along the nodes of one tree. The `mem` arguments say whether `malloc`
   succeeds. `AvlState.freed` records the keys given to `free_key_fun`. -/
namespace IcecastCommon.Avl

variable {K : Type}

/-- `struct _avl_tree`; `compare_arg` is part of `compareFun`. -/
structure AvlTree (K : Type) where
  root : Ptr
  height : BitVec 32
  length : BitVec 32
  compareFun : Option K → Option K → Int

/-- A tree with the heap its nodes live in. -/
structure AvlState (K : Type) where
  tree : AvlTree K
  heap : Heap K
  freed : List (Option K)

/-- `avl_node_new`: NULL when `malloc` fails. -/
def avlNodeNew (mem : Bool) (h : Heap K) (key : Option K) (parent : Ptr) : Ptr × Heap K :=
  if mem then
    let node : AvlNode K :=
      { key := key, left := none, right := none, parent := parent,
        rankAndBalance := avlSetRank (avlSetBalance 0 0) 1 }
    (some h.next, { h.put h.next node with next := h.next + 1 })
  else (none, h)

/-- `avl_tree_new`: NULL (`none`) when one of its two allocations fails. -/
def avlTreeNew (memTree memRoot : Bool) (compareFun : Option K → Option K → Int) :
    Option (AvlState K) :=
  if memTree then
    match avlNodeNew memRoot Heap.empty none none with
    | (none, _) => none
    | (some root, h) =>
      some { tree := { root := some root, height := 0, length := 0, compareFun := compareFun },
             heap := h, freed := [] }
  else none

/-! Insertion. -/

/-- The descent of `avl_insert`: `t` is the parent of `s`, and `s` the last node
met with a non-zero balance. The result is `t`, `s` and the new node, or nothing
when `malloc` fails. -/
def insertDescend (compareFun : Option K → Option K → Int) (mem : Bool) (key : Option K) :
    Nat → Heap K → Ptr → Ptr → Ptr → Option (Heap K × Option (Ptr × Ptr × Ptr))
  | 0, _, _, _, _ => none
  | fuel + 1, h, t, s, p => do
    let n ← h.load p
    if compareFun key n.key < 1 then
      -- move left
      let h ← h.setRank p ((← h.rank p) + 1)
      match n.left with
      | none =>
        match avlNodeNew mem h key p with
        | (none, h) => some (h, none)
        | (some q, h) =>
          let h ← h.modify p fun n => { n with left := some q }
          some (h, some (t, s, some q))
      | some q =>
        if (← h.balance (some q)) ≠ 0 then
          insertDescend compareFun mem key fuel h p (some q) (some q)
        else insertDescend compareFun mem key fuel h t s (some q)
    else
      -- move right
      match n.right with
      | none =>
        match avlNodeNew mem h key p with
        | (none, h) => some (h, none)
        | (some q, h) =>
          let h ← h.modify p fun n => { n with right := some q }
          some (h, some (t, s, some q))
      | some q =>
        if (← h.balance (some q)) ≠ 0 then
          insertDescend compareFun mem key fuel h p (some q) (some q)
        else insertDescend compareFun mem key fuel h t s (some q)

/-- "adjust balance factors": the walk from below `s` down to the new node `q`. -/
def insertAdjust (compareFun : Option K → Option K → Int) (key : Option K) (q : Ptr) :
    Nat → Heap K → Ptr → Option (Heap K)
  | 0, _, _ => none
  | fuel + 1, h, p =>
    if p ≠ q then do
      let n ← h.load p
      if compareFun key n.key < 1 then
        let h ← h.setBalance p (-1)
        insertAdjust compareFun key q fuel h n.left
      else
        let h ← h.setBalance p 1
        insertAdjust compareFun key q fuel h n.right
    else some h

/-- `if (c) c->parent = p`. -/
def setParent (h : Heap K) (c p : Ptr) : Option (Heap K) :=
  match c with
  | none => some h
  | some _ => h.modify c fun n => { n with parent := p }

/-- "single rotation" of `avl_insert`; the new top is `r`. -/
def insertSingle (h : Heap K) (a : Int) (s r : Ptr) : Option (Heap K × Ptr) := do
  let h ←
    if a = -1 then do
      let rn ← h.load r
      let h ← h.modify s fun n => { n with left := rn.right }
      let h ← setParent h rn.right s
      let h ← h.modify r fun n => { n with right := s }
      let h ← h.modify s fun n => { n with parent := r }
      h.setRank s ((← h.rank s) - (← h.rank r))
    else do
      let rn ← h.load r
      let h ← h.modify s fun n => { n with right := rn.left }
      let h ← setParent h rn.left s
      let h ← h.modify r fun n => { n with left := s }
      let h ← h.modify s fun n => { n with parent := r }
      h.setRank r ((← h.rank r) + (← h.rank s))
  let h ← h.setBalance s 0
  let h ← h.setBalance r 0
  some (h, r)

/-- "double rotation" of `avl_insert` for `a == -1`: links and ranks; the new top is
`r->right`. -/
def insertDoubleRight (h : Heap K) (s r : Ptr) : Option (Heap K × Ptr) := do
  let rn ← h.load r
  let p := rn.right
  let pn ← h.load p
  let h ← h.modify r fun n => { n with right := pn.left }
  let h ← setParent h pn.left r
  let h ← h.modify p fun n => { n with left := r }
  let h ← h.modify r fun n => { n with parent := p }
  let pn ← h.load p
  let h ← h.modify s fun n => { n with left := pn.right }
  let h ← setParent h pn.right s
  let h ← h.modify p fun n => { n with right := s }
  let h ← h.modify s fun n => { n with parent := p }
  let h ← h.setRank p ((← h.rank p) + (← h.rank r))
  let h ← h.setRank s ((← h.rank s) - (← h.rank p))
  some (h, p)

/-- The same for `a == +1`: the new top is `r->left`. -/
def insertDoubleLeft (h : Heap K) (s r : Ptr) : Option (Heap K × Ptr) := do
  let rn ← h.load r
  let p := rn.left
  let pn ← h.load p
  let h ← h.modify r fun n => { n with left := pn.right }
  let h ← setParent h pn.right r
  let h ← h.modify p fun n => { n with right := r }
  let h ← h.modify r fun n => { n with parent := p }
  let pn ← h.load p
  let h ← h.modify s fun n => { n with right := pn.left }
  let h ← setParent h pn.left s
  let h ← h.modify p fun n => { n with left := s }
  let h ← h.modify s fun n => { n with parent := p }
  let h ← h.setRank r ((← h.rank r) - (← h.rank p))
  let h ← h.setRank p ((← h.rank p) + (← h.rank s))
  some (h, p)

/-- The balances of `s` and `r` after a double rotation, by the balance `b` of the
new top. -/
def insertDoubleBalance (h : Heap K) (a b : Int) (s r : Ptr) : Option (Heap K) :=
  if b = a then do
    let h ← h.setBalance s (-a)
    h.setBalance r 0
  else if b = -a then do
    let h ← h.setBalance s 0
    h.setBalance r a
  else do
    let h ← h.setBalance s 0
    h.setBalance r 0

/-- "double rotation" of `avl_insert`. -/
def insertDouble (h : Heap K) (a : Int) (s r : Ptr) : Option (Heap K × Ptr) := do
  let (h, p) ← if a = -1 then insertDoubleRight h s r else insertDoubleLeft h s r
  let b ← h.balance p
  let h ← insertDoubleBalance h a b s r
  let h ← h.setBalance p 0
  some (h, p)

/-- "finishing touch": the new top `p` takes the place of `s` below `t`. -/
def insertFinish (h : Heap K) (t s p : Ptr) : Option (Heap K) := do
  let tn ← h.load t
  let h ←
    if s = tn.right then h.modify t fun n => { n with right := p }
    else h.modify t fun n => { n with left := p }
  h.modify p fun n => { n with parent := t }

/-- "balancing act" at `s`, whose parent is `t` and whose child on the path is
`r`; `q` is the new node. The second result says whether the tree grew. -/
def insertBalance (h : Heap K) (a : Int) (t s r q : Ptr) : Option (Heap K × Bool) := do
  let b ← h.balance s
  if b = 0 then
    let h ← h.setBalance s a
    some (h, true)
  else if b = -a then
    let h ← h.setBalance s 0
    some (h, false)
  else if b = a then
    let br ← h.balance r
    let (h, p) ←
      if br = a then insertSingle h a s r
      else if br = -a then insertDouble h a s r
      else some (h, q)
    let h ← insertFinish h t s p
    some (h, false)
  else some (h, false)

/-- `avl_insert`. -/
def avlInsert (mem : Bool) (ob : AvlState K) (key : Option K) : Option (Int × AvlState K) := do
  let compareFun := ob.tree.compareFun
  let root ← ob.heap.load ob.tree.root
  match root.right with
  | none =>
    match avlNodeNew mem ob.heap key ob.tree.root with
    | (none, h) => some (-1, { ob with heap := h })
    | (some node, h) =>
      let h ← h.modify ob.tree.root fun n => { n with right := some node }
      some (0, { ob with heap := h, tree := { ob.tree with length := ob.tree.length + 1 } })
  | some top =>
    match ← insertDescend compareFun mem key ob.heap.next ob.heap ob.tree.root (some top) (some top) with
    | (h, none) => some (-1, { ob with heap := h })
    | (h, some (t, s, q)) =>
      let tree := { ob.tree with length := ob.tree.length + 1 }
      let sn ← h.load s
      let a : Int := if compareFun key sn.key < 1 then -1 else 1
      let r := if compareFun key sn.key < 1 then sn.left else sn.right
      let h ← insertAdjust compareFun key q h.next h r
      let (h, grew) ← insertBalance h a t s r q
      let tree := if grew then { tree with height := tree.height + 1 } else tree
      some (0, { ob with heap := h, tree := tree })

/-! Lookups. -/

/-- The loop of `avl_get_by_index`. -/
def getByIndexLoop (h : Heap K) : Nat → Ptr → BitVec 64 → Option (Option (Option K))
  | 0, _, _ => none
  | fuel + 1, p, m =>
    match p with
    | none => some none
    | some _ => do
      let n ← h.load p
      let rank := (avlGetRank n.rankAndBalance).setWidth 64
      if m < rank then getByIndexLoop h fuel n.left m
      else if rank < m then getByIndexLoop h fuel n.right (m - rank)
      else some (some n.key)

/-- `avl_get_by_index`: `some key` is a return of 0 with the key stored through
`value_address`, `none` a return of -1. -/
def avlGetByIndex (tree : AvlState K) (index : BitVec 64) : Option (Option (Option K)) := do
  let root ← tree.heap.load tree.tree.root
  getByIndexLoop tree.heap (tree.heap.next + 1) root.right (index + 1)

/-- The loop of `avl_get_by_key`. -/
def getByKeyLoop (compareFun : Option K → Option K → Int) (h : Heap K) (key : Option K) :
    Nat → Ptr → Option (Option (Option K))
  | 0, _ => none
  | fuel + 1, x => do
    let n ← h.load x
    let compareResult := compareFun key n.key
    if compareResult < 0 then
      match n.left with
      | some l => getByKeyLoop compareFun h key fuel (some l)
      | none => some none
    else if 0 < compareResult then
      match n.right with
      | some r => getByKeyLoop compareFun h key fuel (some r)
      | none => some none
    else some (some n.key)

/-- `avl_get_by_key`, returning as `avlGetByIndex` does. -/
def avlGetByKey (tree : AvlState K) (key : Option K) : Option (Option (Option K)) := do
  let root ← tree.heap.load tree.tree.root
  match root.right with
  | none => some none
  | some x => getByKeyLoop tree.tree.compareFun tree.heap key tree.heap.next (some x)

/-! Deletion. -/

/-- The climb that puts the ranks back when the key is absent. -/
def undoRanks (root : Ptr) : Nat → Heap K → Ptr → Option (Heap K)
  | 0, _, _ => none
  | fuel + 1, h, x => do
    let rn ← h.load root
    if x ≠ rn.right then
      let xn ← h.load x
      let pn ← h.load xn.parent
      let h ← if pn.left = x then h.setRank xn.parent ((← h.rank xn.parent) + 1) else some h
      undoRanks root fuel h xn.parent
    else some h

/-- The search of `avl_delete`: the node found, or nothing after the ranks were
put back ("key not in tree"). -/
def deleteSearch (compareFun : Option K → Option K → Int) (root : Ptr) (key : Option K) :
    Nat → Heap K → Ptr → Option (Heap K × Option Ptr)
  | 0, _, _ => none
  | fuel + 1, h, x => do
    let n ← h.load x
    let compareResult := compareFun key n.key
    if compareResult < 0 then
      -- move left
      let h ← h.setRank x ((← h.rank x) - 1)
      match n.left with
      | some l => deleteSearch compareFun root key fuel h (some l)
      | none =>
        let h ← h.setRank x ((← h.rank x) + 1)
        let h ← undoRanks root h.next h x
        some (h, none)
    else if 0 < compareResult then
      -- move right
      match n.right with
      | some r => deleteSearch compareFun root key fuel h (some r)
      | none =>
        let h ← h.setRank x ((← h.rank x) + 1)
        let h ← undoRanks root h.next h x
        some (h, none)
    else some (h, some x)

/-- `while (y->right) y = y->right`. -/
def deletePredecessor (h : Heap K) : Nat → Ptr → Option Ptr
  | 0, _ => none
  | fuel + 1, y => do
    let n ← h.load y
    match n.right with
    | some r => deletePredecessor h fuel (some r)
    | none => some y

/-- "The complicated case": with two children, swap keys with the predecessor and
go on there. -/
def deleteSwap (h : Heap K) (x : Ptr) : Option (Heap K × Ptr) := do
  let xn ← h.load x
  if xn.left ≠ none ∧ xn.right ≠ none then
    let y ← deletePredecessor h h.next xn.left
    let yn ← h.load y
    let h ← h.modify x fun n => { n with key := yn.key }
    let h ← h.modify y fun n => { n with key := xn.key }
    let h ← h.setRank x ((← h.rank x) - 1)
    some (h, y)
  else some (h, x)

/-- Links the only child of `x` to the parent of `x`; the second result is `x_child`. -/
def deleteScoot (h : Heap K) (x : AvlNode K) : Option (Heap K × Ptr) :=
  if x.left ≠ none then do
    let h ← h.modify x.left fun n => { n with parent := x.parent }
    some (h, x.left)
  else if x.right ≠ none then do
    let h ← h.modify x.right fun n => { n with parent := x.parent }
    some (h, x.right)
  else some (h, none)

/-- "now tell p about x_child"; the second result is `shortened_side`. -/
def deleteUnlink (h : Heap K) (x : Ptr) : Option (Heap K × Int) := do
  let xn ← h.load x
  let (h, xChild) ← deleteScoot h xn
  let pn ← h.load xn.parent
  if x = pn.left then
    let h ← h.modify xn.parent fun n => { n with left := xChild }
    some (h, -1)
  else
    let h ← h.modify xn.parent fun n => { n with right := xChild }
    some (h, 1)

/-- "single rotate left" of `avl_delete`. -/
def deleteRotateLeft (h : Heap K) (p q : Ptr) : Option (Heap K) := do
  let pn ← h.load p
  let h ← h.modify q fun n => { n with parent := pn.parent }
  let qn ← h.load q
  let h ← h.modify p fun n => { n with right := qn.left }
  let h ← setParent h qn.left p
  let h ← h.modify q fun n => { n with left := p }
  let h ← h.modify p fun n => { n with parent := q }
  h.setRank q ((← h.rank q) + (← h.rank p))

/-- "single rotate right" of `avl_delete`. -/
def deleteRotateRight (h : Heap K) (p q : Ptr) : Option (Heap K) := do
  let pn ← h.load p
  let h ← h.modify q fun n => { n with parent := pn.parent }
  let qn ← h.load q
  let h ← h.modify p fun n => { n with left := qn.right }
  let h ← setParent h qn.right p
  let h ← h.modify q fun n => { n with right := p }
  let h ← h.modify p fun n => { n with parent := q }
  h.setRank p ((← h.rank p) - (← h.rank q))

/-- "double rotate right": a left rotation around `q`, then a right rotation
around `p`. -/
def deleteDoubleRight (h : Heap K) (p q : Ptr) : Option (Heap K × Ptr) := do
  let qn ← h.load q
  let r := qn.right
  let pn ← h.load p
  let h ← h.modify r fun n => { n with parent := pn.parent }
  let rn ← h.load r
  let h ← h.modify q fun n => { n with right := rn.left }
  let h ← setParent h rn.left q
  let h ← h.modify r fun n => { n with left := q }
  let h ← h.modify q fun n => { n with parent := r }
  let rn ← h.load r
  let h ← h.modify p fun n => { n with left := rn.right }
  let h ← setParent h rn.right p
  let h ← h.modify r fun n => { n with right := p }
  let h ← h.modify p fun n => { n with parent := r }
  let h ← h.setRank r ((← h.rank r) + (← h.rank q))
  let h ← h.setRank p ((← h.rank p) - (← h.rank r))
  some (h, r)

/-- "double rotate left": a right rotation around `q`, then a left rotation
around `p`. -/
def deleteDoubleLeft (h : Heap K) (p q : Ptr) : Option (Heap K × Ptr) := do
  let qn ← h.load q
  let r := qn.left
  let pn ← h.load p
  let h ← h.modify r fun n => { n with parent := pn.parent }
  let rn ← h.load r
  let h ← h.modify q fun n => { n with left := rn.right }
  let h ← setParent h rn.right q
  let h ← h.modify r fun n => { n with right := q }
  let h ← h.modify q fun n => { n with parent := r }
  let rn ← h.load r
  let h ← h.modify p fun n => { n with right := rn.left }
  let h ← setParent h rn.left p
  let h ← h.modify r fun n => { n with left := p }
  let h ← h.modify p fun n => { n with parent := r }
  let h ← h.setRank q ((← h.rank q) - (← h.rank r))
  let h ← h.setRank r ((← h.rank r) + (← h.rank p))
  some (h, r)

/-- The balances of `q` and `p` after a double rotation, by the balance `b` of the
new top. -/
def deleteDoubleBalance (h : Heap K) (shortenedSide b : Int) (p q : Ptr) : Option (Heap K) :=
  if b = shortenedSide then do
    let h ← h.setBalance q (-shortenedSide)
    h.setBalance p 0
  else if b = -shortenedSide then do
    let h ← h.setBalance q 0
    h.setBalance p shortenedSide
  else do
    let h ← h.setBalance q 0
    h.setBalance p 0

/-- The rotations of "case 3: shorter subtree shortened"; the results are the new
top of the subtree and `shorter`. -/
def deleteCase3Rotate (h : Heap K) (p q : Ptr) (shortenedSide : Int) :
    Option (Heap K × Ptr × Bool) := do
  let bq ← h.balance q
  let bp ← h.balance p
  if bq = 0 then
    -- case 3a: height unchanged
    let h ← if shortenedSide = -1 then deleteRotateLeft h p q else deleteRotateRight h p q
    let h ← h.setBalance q shortenedSide
    let h ← h.setBalance p (-shortenedSide)
    some (h, q, false)
  else if bq = bp then
    -- case 3b: height reduced
    let h ← if shortenedSide = -1 then deleteRotateLeft h p q else deleteRotateRight h p q
    let h ← h.setBalance q 0
    let h ← h.setBalance p 0
    some (h, q, true)
  else
    -- case 3c: height reduced, balance factors opposite
    let (h, r) ← if shortenedSide = 1 then deleteDoubleRight h p q else deleteDoubleLeft h p q
    let br ← h.balance r
    let h ← deleteDoubleBalance h shortenedSide br p q
    let h ← h.setBalance r 0
    some (h, r, true)

/-- "case 3: shorter subtree shortened", with the link from above. -/
def deleteCase3 (h : Heap K) (p : Ptr) (shortenedSide : Int) : Option (Heap K × Ptr × Bool) := do
  let pn ← h.load p
  let top := pn.parent
  let q := if shortenedSide = 1 then pn.left else pn.right
  let (h, q, shorter) ← deleteCase3Rotate h p q shortenedSide
  let tn ← h.load top
  let h ←
    if tn.left = p then h.modify top fun n => { n with left := q }
    else h.modify top fun n => { n with right := q }
  some (h, q, shorter)

/-- The three cases at one node of the climb; the results are the node the climb
goes on from and `shorter`. -/
def deleteCases (h : Heap K) (p : Ptr) (shortenedSide : Int) : Option (Heap K × Ptr × Bool) := do
  let b ← h.balance p
  if b = 0 then
    -- case 1: height unchanged
    let h ← h.setBalance p (if shortenedSide = -1 then 1 else -1)
    some (h, p, false)
  else if b = shortenedSide then
    -- case 2: taller subtree shortened, height reduced
    let h ← h.setBalance p 0
    some (h, p, true)
  else deleteCase3 h p shortenedSide

/-- The loop of `avl_delete` that climbs back up, rotating when necessary. -/
def deleteClimb : Nat → Heap K → Ptr → Int → Bool → Option (Heap K)
  | 0, _, _, _, _ => none
  | fuel + 1, h, p, shortenedSide, shorter =>
    if shorter then do
      let pn ← h.load p
      if pn.parent ≠ none then
        let (h, x, shorter) ← deleteCases h p shortenedSide
        let xn ← h.load x
        let pn ← h.load xn.parent
        let side : Int := if x = pn.left then -1 else 1
        deleteClimb fuel h xn.parent side shorter
      else some h
    else some h

/-- `avl_delete`; `freeKeyFun` says whether a free function is given. -/
def avlDelete (freeKeyFun : Bool) (ob : AvlState K) (key : Option K) : Option (Int × AvlState K) := do
  let root ← ob.heap.load ob.tree.root
  match root.right with
  | none => some (-1, ob)
  | some x =>
    match ← deleteSearch ob.tree.compareFun ob.tree.root key ob.heap.next ob.heap (some x) with
    | (h, none) => some (-1, { ob with heap := h })
    | (h, some x) =>
      let (h, x) ← deleteSwap h x
      let xn ← h.load x
      let (h, shortenedSide) ← deleteUnlink h x
      let freed := if freeKeyFun then ob.freed ++ [xn.key] else ob.freed
      let h ← h.free x
      let h ← deleteClimb h.next h xn.parent shortenedSide true
      some (0, { heap := h, freed := freed, tree := { ob.tree with length := ob.tree.length - 1 } })

end IcecastCommon.Avl
