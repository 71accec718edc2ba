import IcecastCommon.Avl.Code

/- The insertion and the deletion of `avl.c` over nodes that keep the rank and the balance
   apart, as integers. `allowed` says which ranks may be stored; storing any other is a fault.
   The functions are those of `Code`, and go by the same names. -/
namespace IcecastCommon.Avl.Fields

variable {K : Type}

/-- `struct avl_node_tag` with two fields for `rank_and_balance`. -/
structure Node (K : Type) where
  key : Option K
  left : Ptr
  right : Ptr
  parent : Ptr
  rank : Int
  balance : Int

structure Heap (K : Type) where
  cell : Addr → Option (Node K)
  next : Addr

namespace Heap

def empty : Heap K := { cell := fun _ => none, next := 0 }

def put (h : Heap K) (a : Addr) (n : Node K) : Heap K := { h with cell := Function.update h.cell a (some n) }

def load (h : Heap K) (p : Ptr) : Option (Node K) := p.bind h.cell

def modify (h : Heap K) (p : Ptr) (f : Node K → Node K) : Option (Heap K) := do
  let a ← p
  let n ← h.cell a
  some (h.put a (f n))

def free (h : Heap K) (p : Ptr) : Option (Heap K) := do
  let a ← p
  let _ ← h.cell a
  some { h with cell := Function.update h.cell a none }

def rank (h : Heap K) (p : Ptr) : Option Int := (h.load p).map Node.rank

def balance (h : Heap K) (p : Ptr) : Option Int := (h.load p).map Node.balance

def setRank (allowed : Int → Bool) (h : Heap K) (p : Ptr) (r : Int) : Option (Heap K) :=
  if allowed r then h.modify p fun n => { n with rank := r } else none

def setBalance (h : Heap K) (p : Ptr) (b : Int) : Option (Heap K) := h.modify p fun n => { n with balance := b }

end Heap

structure State (K : Type) where
  tree : AvlTree K
  heap : Heap K
  freed : List (Option K)

/-- `avl_node_new` -/
def avlNodeNew (mem : Bool) (h : Heap K) (key : Option K) (parent : Ptr) : Ptr × Heap K :=
  if mem then
    let node : Node K := { key := key, left := none, right := none, parent := parent, rank := 1, balance := 0 }
    (some h.next, { h.put h.next node with next := h.next + 1 })
  else (none, h)

/-- `avl_tree_new` -/
def avlTreeNew (memTree memRoot : Bool) (compareFun : Option K → Option K → Int) : Option (State K) :=
  if memTree then
    match avlNodeNew memRoot Heap.empty none none with
    | (none, _) => none
    | (some root, h) =>
      some { tree := { root := some root, height := 0, length := 0, compareFun := compareFun },
             heap := h, freed := [] }
  else none

variable (allowed : Int → Bool)

/-! Insertion. -/

def insertDescend (compareFun : Option K → Option K → Int) (mem : Bool) (key : Option K) :
    Nat → Heap K → Ptr → Ptr → Ptr → Option (Heap K × Option (Ptr × Ptr × Ptr))
  | 0, _, _, _, _ => none
  | fuel + 1, h, t, s, p => do
    let n ← h.load p
    if compareFun key n.key < 1 then
      let h ← h.setRank allowed p ((← h.rank p) + 1)
      match n.left with
      | none =>
        match avlNodeNew mem h key p with
        | (none, h) => some (h, none)
        | (some q, h) =>
          let h ← h.modify p fun n => { n with left := some q }
          some (h, some (t, s, some q))
      | some q =>
        if (← h.balance (some q)) ≠ 0 then
          insertDescend compareFun mem key fuel h p (some q) (some q)
        else insertDescend compareFun mem key fuel h t s (some q)
    else
      match n.right with
      | none =>
        match avlNodeNew mem h key p with
        | (none, h) => some (h, none)
        | (some q, h) =>
          let h ← h.modify p fun n => { n with right := some q }
          some (h, some (t, s, some q))
      | some q =>
        if (← h.balance (some q)) ≠ 0 then
          insertDescend compareFun mem key fuel h p (some q) (some q)
        else insertDescend compareFun mem key fuel h t s (some q)

def insertAdjust (compareFun : Option K → Option K → Int) (key : Option K) (q : Ptr) :
    Nat → Heap K → Ptr → Option (Heap K)
  | 0, _, _ => none
  | fuel + 1, h, p =>
    if p ≠ q then do
      let n ← h.load p
      if compareFun key n.key < 1 then
        let h ← h.setBalance p (-1)
        insertAdjust compareFun key q fuel h n.left
      else
        let h ← h.setBalance p 1
        insertAdjust compareFun key q fuel h n.right
    else some h

def setParent (h : Heap K) (c p : Ptr) : Option (Heap K) :=
  match c with
  | none => some h
  | some _ => h.modify c fun n => { n with parent := p }

def insertSingle (h : Heap K) (a : Int) (s r : Ptr) : Option (Heap K × Ptr) := do
  let h ←
    if a = -1 then do
      let rn ← h.load r
      let h ← h.modify s fun n => { n with left := rn.right }
      let h ← setParent h rn.right s
      let h ← h.modify r fun n => { n with right := s }
      let h ← h.modify s fun n => { n with parent := r }
      h.setRank allowed s ((← h.rank s) - (← h.rank r))
    else do
      let rn ← h.load r
      let h ← h.modify s fun n => { n with right := rn.left }
      let h ← setParent h rn.left s
      let h ← h.modify r fun n => { n with left := s }
      let h ← h.modify s fun n => { n with parent := r }
      h.setRank allowed r ((← h.rank r) + (← h.rank s))
  let h ← h.setBalance s 0
  let h ← h.setBalance r 0
  some (h, r)

def insertDoubleRight (h : Heap K) (s r : Ptr) : Option (Heap K × Ptr) := do
  let rn ← h.load r
  let p := rn.right
  let pn ← h.load p
  let h ← h.modify r fun n => { n with right := pn.left }
  let h ← setParent h pn.left r
  let h ← h.modify p fun n => { n with left := r }
  let h ← h.modify r fun n => { n with parent := p }
  let pn ← h.load p
  let h ← h.modify s fun n => { n with left := pn.right }
  let h ← setParent h pn.right s
  let h ← h.modify p fun n => { n with right := s }
  let h ← h.modify s fun n => { n with parent := p }
  let h ← h.setRank allowed p ((← h.rank p) + (← h.rank r))
  let h ← h.setRank allowed s ((← h.rank s) - (← h.rank p))
  some (h, p)

def insertDoubleLeft (h : Heap K) (s r : Ptr) : Option (Heap K × Ptr) := do
  let rn ← h.load r
  let p := rn.left
  let pn ← h.load p
  let h ← h.modify r fun n => { n with left := pn.right }
  let h ← setParent h pn.right r
  let h ← h.modify p fun n => { n with right := r }
  let h ← h.modify r fun n => { n with parent := p }
  let pn ← h.load p
  let h ← h.modify s fun n => { n with right := pn.left }
  let h ← setParent h pn.left s
  let h ← h.modify p fun n => { n with left := s }
  let h ← h.modify s fun n => { n with parent := p }
  let h ← h.setRank allowed r ((← h.rank r) - (← h.rank p))
  let h ← h.setRank allowed p ((← h.rank p) + (← h.rank s))
  some (h, p)

def insertDoubleBalance (h : Heap K) (a b : Int) (s r : Ptr) : Option (Heap K) :=
  if b = a then do
    let h ← h.setBalance s (-a)
    h.setBalance r 0
  else if b = -a then do
    let h ← h.setBalance s 0
    h.setBalance r a
  else do
    let h ← h.setBalance s 0
    h.setBalance r 0

def insertDouble (h : Heap K) (a : Int) (s r : Ptr) : Option (Heap K × Ptr) := do
  let (h, p) ← if a = -1 then insertDoubleRight allowed h s r else insertDoubleLeft allowed h s r
  let b ← h.balance p
  let h ← insertDoubleBalance h a b s r
  let h ← h.setBalance p 0
  some (h, p)

def insertFinish (h : Heap K) (t s p : Ptr) : Option (Heap K) := do
  let tn ← h.load t
  let h ←
    if s = tn.right then h.modify t fun n => { n with right := p }
    else h.modify t fun n => { n with left := p }
  h.modify p fun n => { n with parent := t }

def insertBalance (h : Heap K) (a : Int) (t s r q : Ptr) : Option (Heap K × Bool) := do
  let b ← h.balance s
  if b = 0 then
    let h ← h.setBalance s a
    some (h, true)
  else if b = -a then
    let h ← h.setBalance s 0
    some (h, false)
  else if b = a then
    let br ← h.balance r
    let (h, p) ←
      if br = a then insertSingle allowed h a s r
      else if br = -a then insertDouble allowed h a s r
      else some (h, q)
    let h ← insertFinish h t s p
    some (h, false)
  else some (h, false)

def avlInsert (mem : Bool) (ob : State K) (key : Option K) : Option (Int × State K) := do
  let compareFun := ob.tree.compareFun
  let root ← ob.heap.load ob.tree.root
  match root.right with
  | none =>
    match avlNodeNew mem ob.heap key ob.tree.root with
    | (none, h) => some (-1, { ob with heap := h })
    | (some node, h) =>
      let h ← h.modify ob.tree.root fun n => { n with right := some node }
      some (0, { ob with heap := h, tree := { ob.tree with length := ob.tree.length + 1 } })
  | some top =>
    match ← insertDescend allowed compareFun mem key ob.heap.next ob.heap ob.tree.root (some top) (some top) with
    | (h, none) => some (-1, { ob with heap := h })
    | (h, some (t, s, q)) =>
      let tree := { ob.tree with length := ob.tree.length + 1 }
      let sn ← h.load s
      let a : Int := if compareFun key sn.key < 1 then -1 else 1
      let r := if compareFun key sn.key < 1 then sn.left else sn.right
      let h ← insertAdjust compareFun key q h.next h r
      let (h, grew) ← insertBalance allowed h a t s r q
      let tree := if grew then { tree with height := tree.height + 1 } else tree
      some (0, { ob with heap := h, tree := tree })

/-! Deletion. -/

def undoRanks (root : Ptr) : Nat → Heap K → Ptr → Option (Heap K)
  | 0, _, _ => none
  | fuel + 1, h, x => do
    let rn ← h.load root
    if x ≠ rn.right then
      let xn ← h.load x
      let pn ← h.load xn.parent
      let h ← if pn.left = x then h.setRank allowed xn.parent ((← h.rank xn.parent) + 1) else some h
      undoRanks root fuel h xn.parent
    else some h

def deleteSearch (compareFun : Option K → Option K → Int) (root : Ptr) (key : Option K) :
    Nat → Heap K → Ptr → Option (Heap K × Option Ptr)
  | 0, _, _ => none
  | fuel + 1, h, x => do
    let n ← h.load x
    let compareResult := compareFun key n.key
    if compareResult < 0 then
      let h ← h.setRank allowed x ((← h.rank x) - 1)
      match n.left with
      | some l => deleteSearch compareFun root key fuel h (some l)
      | none =>
        let h ← h.setRank allowed x ((← h.rank x) + 1)
        let h ← undoRanks allowed root h.next h x
        some (h, none)
    else if 0 < compareResult then
      match n.right with
      | some r => deleteSearch compareFun root key fuel h (some r)
      | none =>
        let h ← h.setRank allowed x ((← h.rank x) + 1)
        let h ← undoRanks allowed root h.next h x
        some (h, none)
    else some (h, some x)

def deletePredecessor (h : Heap K) : Nat → Ptr → Option Ptr
  | 0, _ => none
  | fuel + 1, y => do
    let n ← h.load y
    match n.right with
    | some r => deletePredecessor h fuel (some r)
    | none => some y

def deleteSwap (h : Heap K) (x : Ptr) : Option (Heap K × Ptr) := do
  let xn ← h.load x
  if xn.left ≠ none ∧ xn.right ≠ none then
    let y ← deletePredecessor h h.next xn.left
    let yn ← h.load y
    let h ← h.modify x fun n => { n with key := yn.key }
    let h ← h.modify y fun n => { n with key := xn.key }
    let h ← h.setRank allowed x ((← h.rank x) - 1)
    some (h, y)
  else some (h, x)

def deleteScoot (h : Heap K) (x : Node K) : Option (Heap K × Ptr) :=
  if x.left ≠ none then do
    let h ← h.modify x.left fun n => { n with parent := x.parent }
    some (h, x.left)
  else if x.right ≠ none then do
    let h ← h.modify x.right fun n => { n with parent := x.parent }
    some (h, x.right)
  else some (h, none)

def deleteUnlink (h : Heap K) (x : Ptr) : Option (Heap K × Int) := do
  let xn ← h.load x
  let (h, xChild) ← deleteScoot h xn
  let pn ← h.load xn.parent
  if x = pn.left then
    let h ← h.modify xn.parent fun n => { n with left := xChild }
    some (h, -1)
  else
    let h ← h.modify xn.parent fun n => { n with right := xChild }
    some (h, 1)

def deleteRotateLeft (h : Heap K) (p q : Ptr) : Option (Heap K) := do
  let pn ← h.load p
  let h ← h.modify q fun n => { n with parent := pn.parent }
  let qn ← h.load q
  let h ← h.modify p fun n => { n with right := qn.left }
  let h ← setParent h qn.left p
  let h ← h.modify q fun n => { n with left := p }
  let h ← h.modify p fun n => { n with parent := q }
  h.setRank allowed q ((← h.rank q) + (← h.rank p))

def deleteRotateRight (h : Heap K) (p q : Ptr) : Option (Heap K) := do
  let pn ← h.load p
  let h ← h.modify q fun n => { n with parent := pn.parent }
  let qn ← h.load q
  let h ← h.modify p fun n => { n with left := qn.right }
  let h ← setParent h qn.right p
  let h ← h.modify q fun n => { n with right := p }
  let h ← h.modify p fun n => { n with parent := q }
  h.setRank allowed p ((← h.rank p) - (← h.rank q))

def deleteDoubleRight (h : Heap K) (p q : Ptr) : Option (Heap K × Ptr) := do
  let qn ← h.load q
  let r := qn.right
  let pn ← h.load p
  let h ← h.modify r fun n => { n with parent := pn.parent }
  let rn ← h.load r
  let h ← h.modify q fun n => { n with right := rn.left }
  let h ← setParent h rn.left q
  let h ← h.modify r fun n => { n with left := q }
  let h ← h.modify q fun n => { n with parent := r }
  let rn ← h.load r
  let h ← h.modify p fun n => { n with left := rn.right }
  let h ← setParent h rn.right p
  let h ← h.modify r fun n => { n with right := p }
  let h ← h.modify p fun n => { n with parent := r }
  let h ← h.setRank allowed r ((← h.rank r) + (← h.rank q))
  let h ← h.setRank allowed p ((← h.rank p) - (← h.rank r))
  some (h, r)

def deleteDoubleLeft (h : Heap K) (p q : Ptr) : Option (Heap K × Ptr) := do
  let qn ← h.load q
  let r := qn.left
  let pn ← h.load p
  let h ← h.modify r fun n => { n with parent := pn.parent }
  let rn ← h.load r
  let h ← h.modify q fun n => { n with left := rn.right }
  let h ← setParent h rn.right q
  let h ← h.modify r fun n => { n with right := q }
  let h ← h.modify q fun n => { n with parent := r }
  let rn ← h.load r
  let h ← h.modify p fun n => { n with right := rn.left }
  let h ← setParent h rn.left p
  let h ← h.modify r fun n => { n with left := p }
  let h ← h.modify p fun n => { n with parent := r }
  let h ← h.setRank allowed q ((← h.rank q) - (← h.rank r))
  let h ← h.setRank allowed r ((← h.rank r) + (← h.rank p))
  some (h, r)

def deleteDoubleBalance (h : Heap K) (shortenedSide b : Int) (p q : Ptr) : Option (Heap K) :=
  if b = shortenedSide then do
    let h ← h.setBalance q (-shortenedSide)
    h.setBalance p 0
  else if b = -shortenedSide then do
    let h ← h.setBalance q 0
    h.setBalance p shortenedSide
  else do
    let h ← h.setBalance q 0
    h.setBalance p 0

def deleteCase3Rotate (h : Heap K) (p q : Ptr) (shortenedSide : Int) :
    Option (Heap K × Ptr × Bool) := do
  let bq ← h.balance q
  let bp ← h.balance p
  if bq = 0 then
    let h ← if shortenedSide = -1 then deleteRotateLeft allowed h p q else deleteRotateRight allowed h p q
    let h ← h.setBalance q shortenedSide
    let h ← h.setBalance p (-shortenedSide)
    some (h, q, false)
  else if bq = bp then
    let h ← if shortenedSide = -1 then deleteRotateLeft allowed h p q else deleteRotateRight allowed h p q
    let h ← h.setBalance q 0
    let h ← h.setBalance p 0
    some (h, q, true)
  else
    let (h, r) ← if shortenedSide = 1 then deleteDoubleRight allowed h p q else deleteDoubleLeft allowed h p q
    let br ← h.balance r
    let h ← deleteDoubleBalance h shortenedSide br p q
    let h ← h.setBalance r 0
    some (h, r, true)

def deleteCase3 (h : Heap K) (p : Ptr) (shortenedSide : Int) : Option (Heap K × Ptr × Bool) := do
  let pn ← h.load p
  let top := pn.parent
  let q := if shortenedSide = 1 then pn.left else pn.right
  let (h, q, shorter) ← deleteCase3Rotate allowed h p q shortenedSide
  let tn ← h.load top
  let h ←
    if tn.left = p then h.modify top fun n => { n with left := q }
    else h.modify top fun n => { n with right := q }
  some (h, q, shorter)

def deleteCases (h : Heap K) (p : Ptr) (shortenedSide : Int) : Option (Heap K × Ptr × Bool) := do
  let b ← h.balance p
  if b = 0 then
    let h ← h.setBalance p (if shortenedSide = -1 then 1 else -1)
    some (h, p, false)
  else if b = shortenedSide then
    let h ← h.setBalance p 0
    some (h, p, true)
  else deleteCase3 allowed h p shortenedSide

def deleteClimb : Nat → Heap K → Ptr → Int → Bool → Option (Heap K)
  | 0, _, _, _, _ => none
  | fuel + 1, h, p, shortenedSide, shorter =>
    if shorter then do
      let pn ← h.load p
      if pn.parent ≠ none then
        let (h, x, shorter) ← deleteCases allowed h p shortenedSide
        let xn ← h.load x
        let pn ← h.load xn.parent
        let side : Int := if x = pn.left then -1 else 1
        deleteClimb fuel h xn.parent side shorter
      else some h
    else some h

def avlDelete (freeKeyFun : Bool) (ob : State K) (key : Option K) : Option (Int × State K) := do
  let root ← ob.heap.load ob.tree.root
  match root.right with
  | none => some (-1, ob)
  | some x =>
    match ← deleteSearch allowed ob.tree.compareFun ob.tree.root key ob.heap.next ob.heap (some x) with
    | (h, none) => some (-1, { ob with heap := h })
    | (h, some x) =>
      let (h, x) ← deleteSwap allowed h x
      let xn ← h.load x
      let (h, shortenedSide) ← deleteUnlink h x
      let freed := if freeKeyFun then ob.freed ++ [xn.key] else ob.freed
      let h ← h.free x
      let h ← deleteClimb allowed h.next h xn.parent shortenedSide true
      some (0, { heap := h, freed := freed, tree := { ob.tree with length := ob.tree.length - 1 } })

end IcecastCommon.Avl.Fields
