import IcecastCommon.Avl.Delete
import IcecastCommon.Avl.Lookup

/- Runs of insertions and deletions from `avl_tree_new`. `Sound` is the invariant: the
   heap holds a balanced tree and the length counts its nodes as far as 32 bits go.
   `apply_spec` says what one operation does to the tree and `run_spec` carries any
   property of trees along a whole run. -/
namespace IcecastCommon.Avl
open Library BinaryTree

variable {K : Type}

/-- One call: `avl_insert` with a successful allocation, or `avl_delete`. -/
inductive Op (K : Type) where
  | insert (key : Option K)
  | delete (freeKeyFun : Bool) (key : Option K)

def apply (ob : AvlState K) : Op K → Option (Int × AvlState K)
  | .insert key => avlInsert true ob key
  | .delete freeKeyFun key => avlDelete freeKeyFun ob key

/-- The return codes of a sequence of calls and the state after it. -/
def run : List (Op K) → AvlState K → Option (List Int × AvlState K)
  | [], ob => some ([], ob)
  | op :: ops, ob => do
    let (code, ob) ← apply ob op
    let (codes, ob) ← run ops ob
    some (code :: codes, ob)

/-- A run on a new tree. -/
def runNew (compareFun : Option K → Option K → Int) (ops : List (Op K)) :
    Option (List Int × AvlState K) := do
  let ob ← avlTreeNew true true compareFun
  run ops ob

/-- The state holds a balanced tree and counts its nodes. -/
structure Sound (ob : AvlState K) (t : BinaryTree (Cell K)) : Prop where
  holds : Holds ob 0 t
  balanced : AvlBalanced t
  length : ob.tree.length = BitVec.ofNat 32 t.numNodes

/-- The return code of one call and the tree after it. -/
def stepTree (cmp : Option K → Option K → Int) (next : Addr) (t : BinaryTree (Cell K)) :
    Op K → Int × BinaryTree (Cell K)
  | .insert key => (0, (insertTree cmp (freshCell next key) t).1)
  | .delete _ key =>
    match deleteTree cmp key t with
    | some D => (0, D.tree)
    | none => (-1, missTree cmp key t)

theorem deleteTree_numNodes {cmp : Option K → Option K → Int} {k : Option K} {t : BinaryTree (Cell K)}
    {D : Deleted K} (h : deleteTree cmp k t = some D) : t.numNodes = D.tree.numNodes + 1 := by
  obtain ⟨xs, ys, ht, hD, _⟩ := deleteTree_keys h
  rw [← keys_length, ← keys_length, ht, hD]
  simp only [List.length_append, List.length_cons]
  omega

theorem missTree_numNodes {cmp : Option K → Option K → Int} {k : Option K} {t : BinaryTree (Cell K)}
    (h : deleteTree cmp k t = none) : (missTree cmp k t).numNodes = t.numNodes := by
  rw [← keys_length, ← keys_length, missTree_keys h]

/-- Every call goes through, does what `stepTree` says and keeps the invariant. -/
theorem apply_spec {ob : AvlState K} {t : BinaryTree (Cell K)} (S : Sound ob t) (op : Op K) :
    ∃ ob', apply ob op = some ((stepTree ob.tree.compareFun ob.heap.next t op).1, ob') ∧
      Sound ob' (stepTree ob.tree.compareFun ob.heap.next t op).2 ∧
      ob'.tree.compareFun = ob.tree.compareFun := by
  cases op with
  | insert key =>
    obtain ⟨ob', e, H', hlen, hcmp, _, _⟩ := avlInsert_spec S.holds S.balanced key
    refine ⟨ob', e, ⟨H', (insertTree_balanced (freshCell_bal ..) S.balanced).1, ?_⟩, hcmp⟩
    rw [hlen, S.length]
    simp only [stepTree, insertTree_numNodes]
    rw [BitVec.ofNat_add]
    rfl
  | delete freeKeyFun key =>
    cases hD : deleteTree ob.tree.compareFun key t with
    | some D =>
      obtain ⟨ob', e, H', htree, _⟩ := avlDelete_spec S.holds S.balanced freeKeyFun hD
      simp only [stepTree, hD]
      refine ⟨ob', e, ⟨H', (deleteTree_balanced hD S.balanced).1, ?_⟩, by rw [htree]⟩
      rw [htree]
      show ob.tree.length - 1 = _
      rw [S.length, deleteTree_numNodes hD, BitVec.ofNat_add]
      exact BitVec.add_sub_cancel _ _
    | none =>
      obtain ⟨ob', e, H', htree, _⟩ := avlDelete_miss S.holds freeKeyFun hD
      simp only [stepTree, hD]
      refine ⟨ob', e, ⟨H', missTree_balanced hD S.balanced, ?_⟩, by rw [htree]⟩
      rw [htree, S.length, missTree_numNodes hD]

/-- A whole run: it goes through, the invariant holds at its end, and so does any
property of trees that the calls with acceptable codes keep. -/
theorem run_spec (cmp : Option K → Option K → Int) (ok : Int → Prop) (P : BinaryTree (Cell K) → Prop)
    (hstep : ∀ next t op, P t → ok (stepTree cmp next t op).1 → P (stepTree cmp next t op).2)
    (ops : List (Op K)) {ob : AvlState K} {t : BinaryTree (Cell K)} (S : Sound ob t)
    (hcmp : ob.tree.compareFun = cmp) :
    ∃ codes ob' t', run ops ob = some (codes, ob') ∧ Sound ob' t' ∧ ob'.tree.compareFun = cmp ∧
      (P t → (∀ c ∈ codes, ok c) → P t') := by
  -- on the calls; `Sound` is what one call hands to the next
  induction ops generalizing ob t with
  | nil => exact ⟨[], ob, t, rfl, S, hcmp, fun hP _ => hP⟩
  | cons op ops ih =>
    obtain ⟨ob₁, e₁, S₁, hcmp₁⟩ := apply_spec S op
    rw [hcmp] at e₁ S₁ hcmp₁
    obtain ⟨codes, ob', t', e', S', hcmp', hP'⟩ := ih S₁ hcmp₁
    refine ⟨(stepTree cmp ob.heap.next t op).1 :: codes, ob', t', ?_, S', hcmp', ?_⟩
    · rw [run, e₁]
      simp only [Option.bind_eq_bind, Option.bind_some, e']
    · intro hP hok
      exact hP' (hstep _ _ _ hP (hok _ (by simp))) fun c hc => hok c (by simp [hc])

theorem runNew_spec (cmp : Option K → Option K → Int) (ok : Int → Prop) (P : BinaryTree (Cell K) → Prop)
    (hstep : ∀ next t op, P t → ok (stepTree cmp next t op).1 → P (stepTree cmp next t op).2)
    (hnil : P nil) (ops : List (Op K)) :
    ∃ codes ob t, runNew cmp ops = some (codes, ob) ∧ Sound ob t ∧ ob.tree.compareFun = cmp ∧
      ((∀ c ∈ codes, ok c) → P t) := by
  obtain ⟨ob, e, H, hlen, _, hcmp, _⟩ := avlTreeNew_spec cmp
  have S : Sound ob nil := ⟨H, trivial, by rw [hlen]; rfl⟩
  obtain ⟨codes, ob', t', e', S', hcmp', hP'⟩ := run_spec cmp ok P hstep ops S hcmp
  refine ⟨codes, ob', t', ?_, S', hcmp', hP' hnil⟩
  rw [runNew, e]
  exact e'

/-! Balance and links. -/

/-- After every run the header's right link holds a tree whose links go both ways, whose
balances are the height differences and at most one off, and whose size is the length. -/
theorem run_avl (cmp : Option K → Option K → Int) (ops : List (Op K)) :
    ∃ codes ob t, runNew cmp ops = some (codes, ob) ∧ Holds ob 0 t ∧ AvlBalanced t ∧
      ob.tree.length = BitVec.ofNat 32 t.numNodes := by
  obtain ⟨codes, ob, t, e, S, _, _⟩ := runNew_spec cmp (fun _ => True) (fun _ => True)
    (fun _ _ _ _ _ => trivial) trivial ops
  exact ⟨codes, ob, t, e, S.holds, S.balanced, S.length⟩

/-- A run of insertions grows the tree by as many nodes. -/
theorem run_inserts (key : Option K) (n : Nat) {ob : AvlState K} {t : BinaryTree (Cell K)}
    (S : Sound ob t) :
    ∃ codes ob' t', run (List.replicate n (.insert key)) ob = some (codes, ob') ∧ Sound ob' t' ∧
      t'.numNodes = t.numNodes + n ∧ ∀ c ∈ codes, c = 0 := by
  induction n generalizing ob t with
  | zero => exact ⟨[], ob, t, rfl, S, rfl, by simp⟩
  | succ n ih =>
    obtain ⟨ob₁, e₁, S₁, _⟩ := apply_spec S (.insert key)
    obtain ⟨codes, ob', t', e', S', hn, hcodes⟩ := ih S₁
    refine ⟨0 :: codes, ob', t', ?_, S', ?_, ?_⟩
    · rw [List.replicate_succ, run, e₁]
      simp only [Option.bind_eq_bind, Option.bind_some, e']
      rfl
    · rw [hn]
      simp only [stepTree, insertTree_numNodes]
      omega
    · intro c hc
      rcases List.mem_cons.mp hc with rfl | hc
      · rfl
      · exact hcodes c hc

theorem runNew_inserts (cmp : Option K → Option K → Int) (key : Option K) (n : Nat) :
    ∃ codes ob t, runNew cmp (List.replicate n (.insert key)) = some (codes, ob) ∧ Sound ob t ∧
      t.numNodes = n ∧ ∀ c ∈ codes, c = 0 := by
  obtain ⟨ob, e, H, hlen, _, _⟩ := avlTreeNew_spec cmp
  obtain ⟨codes, ob', t', e', S', hn, hcodes⟩ := run_inserts key n
    (⟨H, trivial, by rw [hlen]; rfl⟩ : Sound ob nil)
  refine ⟨codes, ob', t', ?_, S', by simpa using hn, hcodes⟩
  rw [runNew, e]
  exact e'

/-- A comparison under which all keys are equal. -/
def allEqual : Option Unit → Option Unit → Int := fun _ _ => 0

theorem allEqual_totalPreorder : TotalPreorder allEqual :=
  ⟨fun _ _ => by simp [allEqual], fun _ _ _ _ _ => by simp [allEqual]⟩

/-- The length is an `unsigned int`: after `2 ^ 32` insertions it is zero. -/
theorem run_length_wraps : TotalPreorder allEqual ∧
    ∃ codes ob, runNew allEqual (List.replicate (2 ^ 32) (.insert none)) = some (codes, ob) ∧
      ¬ ∃ t, Holds ob 0 t ∧ ob.tree.length.toNat = t.numNodes := by
  refine ⟨allEqual_totalPreorder, ?_⟩
  obtain ⟨codes, ob, t, e, S, hn, _⟩ := runNew_inserts allEqual none (2 ^ 32)
  refine ⟨codes, ob, e, ?_⟩
  rintro ⟨u, H, hlen⟩
  have hu : u.numNodes = 2 ^ 32 := by rw [H.unique S.holds, hn]
  rw [S.length, hn, hu, BitVec.toNat_ofNat, Nat.mod_self] at hlen
  exact absurd hlen (by decide)

/-! Order. -/

theorem stepTree_ordered {cmp : Option K → Option K → Int} (hcmp : TotalPreorder cmp) (next : Addr)
    (t : BinaryTree (Cell K)) (op : Op K) (ht : Ordered cmp (keys t)) :
    Ordered cmp (keys (stepTree cmp next t op).2) := by
  cases op with
  | insert key =>
    simp only [stepTree, insertTree_ordered hcmp _ ht]
    exact hcmp.ordered_insert ht key
  | delete freeKeyFun key =>
    cases hD : deleteTree cmp key t with
    | some D =>
      obtain ⟨xs, ys, hkeys, hkeys', _⟩ := deleteTree_keys hD
      simp only [stepTree, hD]
      rw [hkeys] at ht
      rw [hkeys']
      exact ht.sublist ((List.Sublist.refl xs).append (List.sublist_cons_self _ _))
    | none =>
      simp only [stepTree, hD]
      rwa [missTree_keys hD]

/-- The tree refines its ordered key sequence: after every run, an insertion puts the key
before the first one it is not after, a deletion takes out one key comparing equal or fails
and changes nothing, and a lookup finds a key comparing equal when there is one. -/
theorem run_refines_sequence {cmp : Option K → Option K → Int} (hcmp : TotalPreorder cmp)
    (ops : List (Op K)) :
    ∃ codes ob s, runNew cmp ops = some (codes, ob) ∧ ob.sequence = some s ∧ Ordered cmp s ∧
      (∀ k, ∃ ob', avlInsert true ob k = some (0, ob') ∧
        ob'.sequence = some (s.orderedInsert (NotAfter cmp) k)) ∧
      (∀ f k, (∃ e ∈ s, cmp k e = 0) → ∃ ob' xs e ys, avlDelete f ob k = some (0, ob') ∧
        s = xs ++ e :: ys ∧ cmp k e = 0 ∧ ob'.sequence = some (xs ++ ys)) ∧
      (∀ f k, (¬ ∃ e ∈ s, cmp k e = 0) → ∃ ob', avlDelete f ob k = some (-1, ob') ∧
        ob'.sequence = some s) ∧
      (∀ k, (∃ e ∈ s, cmp k e = 0) → ∃ e ∈ s, cmp k e = 0 ∧ avlGetByKey ob k = some (some e)) ∧
      (∀ k, (¬ ∃ e ∈ s, cmp k e = 0) → avlGetByKey ob k = some none) := by
  obtain ⟨codes, ob, t, e, S, hc, hord⟩ := runNew_spec cmp (fun _ => True) (fun t => Ordered cmp (keys t))
    (fun next t op ht _ => stepTree_ordered hcmp next t op ht) List.Pairwise.nil ops
  have hord := hord fun _ _ => trivial
  refine ⟨codes, ob, keys t, e, S.holds.sequence, hord, ?_, ?_, ?_, ?_, ?_⟩
  · intro k
    obtain ⟨ob', e', H', _⟩ := avlInsert_spec S.holds S.balanced k
    refine ⟨ob', e', ?_⟩
    rw [H'.sequence, hc, insertTree_ordered hcmp _ hord]
    rfl
  · intro f k hk
    obtain ⟨D, hD⟩ := (deleteTree_isSome hcmp hord).mp hk
    obtain ⟨xs, ys, hkeys, hkeys', he⟩ := deleteTree_keys hD
    obtain ⟨ob', e', H', _⟩ := avlDelete_spec S.holds S.balanced f (by rw [hc]; exact hD)
    exact ⟨ob', xs, D.key, ys, e', hkeys, he, by rw [H'.sequence, hkeys']⟩
  · intro f k hk
    have hD : deleteTree cmp k t = none := by
      rw [deleteTree_isSome hcmp hord, ← Option.ne_none_iff_exists'] at hk
      exact not_not.mp hk
    obtain ⟨ob', e', H', _⟩ := avlDelete_miss S.holds f (by rw [hc]; exact hD)
    refine ⟨ob', e', ?_⟩
    rw [H'.sequence, hc, ← missTree_keys hD]
    rfl
  · intro k ⟨e, he, hk⟩
    cases hf : findKey cmp k t with
    | none => exact absurd hk (findKey_none hcmp hord hf e he)
    | some e' =>
      obtain ⟨he', hk'⟩ := findKey_some hf
      exact ⟨e', he', hk', by rw [avlGetByKey_spec S.holds, hc, hf]⟩
  · intro k hk
    rw [avlGetByKey_spec S.holds, hc]
    cases hf : findKey cmp k t with
    | none => rfl
    | some e' => exact absurd ⟨e', findKey_some hf⟩ hk

/-- Integers compared by their difference, NULL as zero. -/
def compareInts : Option Int → Option Int → Int := fun a b => a.getD 0 - b.getD 0

theorem compareInts_totalPreorder : TotalPreorder compareInts :=
  ⟨fun a b => by unfold compareInts; omega, fun a b c => by unfold compareInts; omega⟩

theorem run_refines_sequence_ints :
    ∃ codes ob s, runNew compareInts [.insert (some 2), .insert (some 1), .delete false (some 2)] =
        some (codes, ob) ∧ ob.sequence = some s ∧ Ordered compareInts s := by
  obtain ⟨codes, ob, s, e, hs, hord, _⟩ := run_refines_sequence compareInts_totalPreorder
    [.insert (some 2), .insert (some 1), .delete false (some 2)]
  exact ⟨codes, ob, s, e, hs, hord⟩

/-! Ranks. -/

theorem stepTree_ranked (cmp : Option K → Option K → Int) (next : Addr) (t : BinaryTree (Cell K))
    (op : Op K) (ht : AvlRanked t) (hok : (stepTree cmp next t op).1 = 0) :
    AvlRanked (stepTree cmp next t op).2 := by
  cases op with
  | insert key => exact insertTree_ranked (freshCell_rank ..) ht
  | delete freeKeyFun key =>
    simp only [stepTree] at hok ⊢
    cases hD : deleteTree cmp key t with
    | some D => exact deleteTree_ranked hD ht
    | none => simp [hD] at hok

theorem linear_lt_two_pow {m : Nat} (hm : 64 ≤ m) : (2 * m + 1) * 2 ^ 30 + 1 < 2 ^ m := by
  induction m, hm using Nat.le_induction with
  | base => decide
  | succ m _ ih =>
    have hpow : 2 ^ (m + 1) = 2 * 2 ^ m := Nat.pow_succ'
    have hstep : (2 * (m + 1) + 1) * 2 ^ 30 + 1 = (2 * m + 1) * 2 ^ 30 + 1 + 2 * 2 ^ 30 := by ring
    have hle : 2 * 2 ^ 30 ≤ (2 * m + 1) * 2 ^ 30 := Nat.mul_le_mul_right _ (by omega)
    rw [hpow, hstep, Nat.two_mul (2 ^ m)]
    exact Nat.add_lt_add ih (lt_of_le_of_lt (Nat.le_succ_of_le hle) ih)

/-- A balanced tree without a left subtree of `2 ^ 30` nodes has fewer than `2 ^ 37` nodes. -/
theorem numNodes_lt_of_leftSizes {t : BinaryTree (Cell K)} (ht : AvlBalanced t)
    (hsize : LeftSizes (fun _ n => n + 1 < 2 ^ 30) t) : t.numNodes < 2 ^ 37 := by
  have hle : t.numNodes ≤ t.height * 2 ^ 30 := numNodes_le_height_mul (fun _ n h => by omega) hsize
  have hpow := two_pow_half_height_le ht
  by_contra hge
  have hlt := linear_lt_two_pow (m := t.height / 2) (by omega)
  omega

/-- With right ranks `avl_get_by_index` returns the key at every position. -/
theorem avlGetByIndex_ranked {ob : AvlState K} {t : BinaryTree (Cell K)} (S : Sound ob t)
    (hranked : AvlRanked t) (hsize : LeftSizes (fun _ n => n + 1 < 2 ^ 30) t) (index : BitVec 64) :
    avlGetByIndex ob index = some (keys t)[index.toNat]? := by
  have hlt := numNodes_lt_of_leftSizes S.balanced hsize
  rw [avlGetByIndex_spec S.holds, atRank_eq (ranked_exact hranked hsize)]
  have hone : (index + 1).toNat = (index.toNat + 1) % 2 ^ 64 := by
    rw [BitVec.toNat_add]
    rfl
  split
  · -- the position before the wrap is past the end
    rename_i h0
    rw [h0] at hone
    have hi : (keys t).length ≤ index.toNat := by
      rw [keys_length]
      have := index.isLt
      have hone : 0 = (index.toNat + 1) % 2 ^ 64 := hone
      omega
    rw [List.getElem?_eq_none hi]
  · rename_i h0
    have hne : (index + 1).toNat ≠ 0 := fun h => h0 (BitVec.eq_of_toNat_eq (by simpa using h))
    have := index.isLt
    rw [hone] at hne ⊢
    congr 2
    omega

/-- After every run whose deletions find their keys each rank is one plus the size of the
left subtree, up to the thirty bits it has; as long as no left subtree outgrows them,
`avl_get_by_index` returns the key at every position and fails past the end. -/
theorem run_ranks (cmp : Option K → Option K → Int) (ops : List (Op K)) {codes : List Int}
    {ob : AvlState K} (hrun : runNew cmp ops = some (codes, ob)) (hfound : ∀ c ∈ codes, c = 0) :
    ∃ t, Holds ob 0 t ∧ ob.sequence = some (keys t) ∧ AvlRanked t ∧
      (∀ index, avlGetByIndex ob index ≠ none) ∧
      (LeftSizes (fun _ n => n + 1 < 2 ^ 30) t →
        ∀ index, avlGetByIndex ob index = some (keys t)[index.toNat]?) := by
  obtain ⟨codes', ob', t, e, S, _, hranked⟩ := runNew_spec cmp (fun c => c = 0) AvlRanked
    (fun next t op => stepTree_ranked cmp next t op) trivial ops
  obtain ⟨rfl, rfl⟩ : codes' = codes ∧ ob' = ob := by
    rw [hrun] at e
    simpa using (Option.some.inj e).symm
  have hranked := hranked hfound
  refine ⟨t, S.holds, S.holds.sequence, hranked, ?_, ?_⟩
  · intro index
    rw [avlGetByIndex_spec S.holds]
    exact Option.some_ne_none _
  · intro hsize index
    exact avlGetByIndex_ranked S hranked hsize index

theorem run_ranks_ints : ∃ codes ob t,
    runNew compareInts [.insert (some 1), .insert (some 2), .delete false (some 1)] = some (codes, ob) ∧
      Holds ob 0 t ∧ AvlRanked t := by
  obtain ⟨ob, e⟩ : ∃ ob, runNew compareInts [.insert (some 1), .insert (some 2),
      .delete false (some 1)] = some ([0, 0, 0], ob) := ⟨_, rfl⟩
  obtain ⟨t, H, _, hranked, _⟩ := run_ranks compareInts _ e (by simp)
  exact ⟨_, ob, t, e, H, hranked⟩

/-- An exact rank fits its field. -/
theorem exact_small {t : BinaryTree (Cell K)} (ht : LeftSizes RankExact t) :
    LeftSizes (fun _ n => n + 1 < 2 ^ 30) t := by
  apply ht.imp
  intro c n (hc : c.rank = n + 1)
  have := c.rank_lt
  omega

theorem exact_ranked {t : BinaryTree (Cell K)} (ht : LeftSizes RankExact t) : AvlRanked t := by
  apply ht.imp
  intro c n (hc : c.rank = n + 1)
  have := c.rank_lt
  rw [RankIs, ← hc, Nat.mod_eq_of_lt this]

/-- The rank field has thirty bits: after `2 ^ 37` insertions some rank is wrong. -/
theorem run_ranks_wrap : TotalPreorder allEqual ∧
    ∃ codes ob, runNew allEqual (List.replicate (2 ^ 37) (.insert none)) = some (codes, ob) ∧
      (∀ c ∈ codes, c = 0) ∧ ¬ ∃ t, Holds ob 0 t ∧ LeftSizes RankExact t := by
  refine ⟨allEqual_totalPreorder, ?_⟩
  obtain ⟨codes, ob, t, e, S, hn, hcodes⟩ := runNew_inserts allEqual none (2 ^ 37)
  refine ⟨codes, ob, e, hcodes, ?_⟩
  rintro ⟨u, H, hexact⟩
  obtain rfl := H.unique S.holds
  have := numNodes_lt_of_leftSizes S.balanced (exact_small hexact)
  omega

end IcecastCommon.Avl
