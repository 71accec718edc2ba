import IcecastCommon.Avl.Runs

/- `avl_tree_free`, and which keys a run gives to the free function. At every moment the
   keys freed so far and the keys stored are together the keys inserted. Freeing the tree
   frees the stored ones, unless the `unsigned int` length has come round to zero. -/
namespace IcecastCommon.Avl

variable {K : Type}

/-- `avl_tree_free_helper`. -/
def avlTreeFreeHelper (freeKeyFun : Bool) :
    Nat → Heap K → List (Option K) → Ptr → Option (Heap K × List (Option K))
  | 0, _, _, _ => none
  | fuel + 1, h, freed, node => do
    let n ← h.load node
    let (h, freed) ←
      (if n.left ≠ none then avlTreeFreeHelper freeKeyFun fuel h freed n.left else some (h, freed))
    let n ← h.load node
    let freed := if freeKeyFun then freed ++ [n.key] else freed
    let (h, freed) ←
      (if n.right ≠ none then avlTreeFreeHelper freeKeyFun fuel h freed n.right else some (h, freed))
    let h ← h.free node
    some (h, freed)

/-- `avl_tree_free`: the heap it leaves and the keys given to `free_key_fun` so far. -/
def avlTreeFree (freeKeyFun : Bool) (ob : AvlState K) : Option (Heap K × List (Option K)) := do
  let (h, freed) ←
    if ob.tree.length ≠ 0 then do
      let root ← ob.heap.load ob.tree.root
      avlTreeFreeHelper freeKeyFun ob.heap.next ob.heap ob.freed root.right
    else some (ob.heap, ob.freed)
  let h ← if ob.tree.root ≠ none then h.free ob.tree.root else some h
  some (h, freed)

/-! Freeing a tree. -/

open Library BinaryTree Heap

/-- The keys given to the free function, with `ks` after the ones before. -/
def handOver (freeKeyFun : Bool) (freed ks : List (Option K)) : List (Option K) :=
  if freeKeyFun then freed ++ ks else freed

theorem handOver_append (freeKeyFun : Bool) (freed ks ls : List (Option K)) :
    handOver freeKeyFun (handOver freeKeyFun freed ks) ls = handOver freeKeyFun freed (ks ++ ls) := by
  cases freeKeyFun with
  | false => rfl
  | true => exact List.append_assoc freed ks ls

/-- `h'` is `h` without the cells of `l`. -/
def FreedCells (l : List Addr) (h h' : Heap K) : Prop :=
  h'.next = h.next ∧ (∀ a ∈ l, h'.cell a = none) ∧ ∀ a, a ∉ l → h'.cell a = h.cell a

theorem freedCells_nil (h : Heap K) : FreedCells [] h h := by
  refine ⟨rfl, ?_, fun _ _ => rfl⟩
  intro a ha
  exact absurd ha (by simp)

theorem free_spec {h : Heap K} {a : Addr} {n : AvlNode K} (hn : h.cell a = some n) :
    ∃ h', h.free (some a) = some h' ∧ FreedCells [a] h h' := by
  refine ⟨{ h with cell := Function.update h.cell a none }, ?_, rfl, ?_, ?_⟩
  · simp [free, hn]
  · intro b hb
    obtain rfl := List.mem_singleton.mp hb
    simp
  · intro b hb
    have hne : b ≠ a := fun e => hb (List.mem_singleton.mpr e)
    simp [hne]

theorem FreedCells.append {l m : List Addr} {h₁ h₂ h₃ : Heap K} (hl : FreedCells l h₁ h₂)
    (hm : FreedCells m h₂ h₃) : FreedCells (l ++ m) h₁ h₃ := by
  refine ⟨hm.1.trans hl.1, ?_, ?_⟩
  · intro a ha
    by_cases hma : a ∈ m
    · exact hm.2.1 a hma
    · rcases List.mem_append.mp ha with hla | h
      · rw [hm.2.2 a hma]
        exact hl.2.1 a hla
      · exact absurd h hma
  · intro a ha
    rw [List.mem_append, not_or] at ha
    rw [hm.2.2 a ha.2, hl.2.2 a ha.1]

theorem FreedCells.perm {l m : List Addr} {h h' : Heap K} (hl : FreedCells l h h')
    (hlm : ∀ a, a ∈ m ↔ a ∈ l) : FreedCells m h h' :=
  ⟨hl.1, fun a ha => hl.2.1 a ((hlm a).mp ha), fun a ha => hl.2.2 a fun h => ha ((hlm a).mpr h)⟩

/-- The recursion for a child that may be NULL. -/
theorem avlTreeFreeHelper_spec (freeKeyFun : Bool) {fuel : Nat} {h : Heap K} {par : Ptr}
    {t : BinaryTree (Cell K)} (ht : Rep h par t) (hnd : (addrs t).Nodup) (hfuel : t.height ≤ fuel)
    (freed : List (Option K)) :
    ∃ h', (if ptr t ≠ none then avlTreeFreeHelper freeKeyFun fuel h freed (ptr t)
        else some (h, freed)) = some (h', handOver freeKeyFun freed (keys t)) ∧
      FreedCells (addrs t) h h' := by
  -- on the tree: the left subtree is freed first, and the heap it leaves has the right one
  induction t generalizing fuel h par freed with
  | nil =>
    refine ⟨h, ?_, freedCells_nil h⟩
    rw [if_neg (by simp)]
    cases freeKeyFun with
    | false => rfl
    | true => exact congrArg some (congrArg (Prod.mk h) (List.append_nil freed).symm)
  | node c l r ihl ihr =>
    obtain ⟨fuel, rfl⟩ : ∃ n, fuel = n + 1 := ⟨fuel - 1, by simp only [height] at hfuel; omega⟩
    obtain ⟨hc, hl, hr⟩ := ht
    simp only [height] at hfuel
    simp only [addrs_node, List.nodup_append, List.nodup_cons, List.mem_cons] at hnd
    obtain ⟨hndl, ⟨hcr, hndr⟩, hdisj⟩ := hnd
    have hcl : c.addr ∉ addrs l := fun hm => hdisj _ hm _ (Or.inl rfl) rfl
    obtain ⟨h₁, e₁, D₁⟩ := ihl hl hndl (by omega : l.height ≤ fuel) freed
    have hc₁ : h₁.cell c.addr = some (c.record (ptr l) (ptr r) par) := by rw [D₁.2.2 _ hcl, hc]
    have hr₁ : Rep h₁ (some c.addr) r := by
      refine hr.congr fun a ha => D₁.2.2 a fun hm => ?_
      exact hdisj a hm a (Or.inr ha) rfl
    obtain ⟨h₂, e₂, D₂⟩ := ihr hr₁ hndr (by omega : r.height ≤ fuel)
      (handOver freeKeyFun (handOver freeKeyFun freed (keys l)) [c.key])
    have hc₂ : h₂.cell c.addr = some (c.record (ptr l) (ptr r) par) := by rw [D₂.2.2 _ hcr, hc₁]
    obtain ⟨h₃, e₃, D₃⟩ := free_spec hc₂
    refine ⟨h₃, ?_, ((D₁.append D₂).append D₃).perm fun a => ?_⟩
    · rw [handOver_append, handOver_append, List.append_assoc, List.singleton_append,
        ← keys_node] at e₂
      have hkey : (if freeKeyFun then handOver freeKeyFun freed (keys l) ++ [c.key]
          else handOver freeKeyFun freed (keys l)) = handOver freeKeyFun freed (keys l ++ [c.key]) := by
        rw [← handOver_append]
        rfl
      rw [if_pos (by simp), ptr_node, avlTreeFreeHelper]
      simp only [load_some, hc, Option.bind_eq_bind, Option.bind_some, Cell.record] at e₁ e₂ e₃ hc₁ ⊢
      rw [e₁, Option.bind_some, hc₁, Option.bind_some]
      simp only [hkey]
      rw [e₂, Option.bind_some, e₃]
      rfl
    · simp only [addrs_node, List.mem_append, List.mem_cons, List.not_mem_nil, or_false]
      tauto

/-- A tree of length zero is given back without looking at its nodes. -/
theorem avlTreeFree_zero (freeKeyFun : Bool) {ob : AvlState K} {hdr : Addr} {t : BinaryTree (Cell K)}
    (H : Holds ob hdr t) (hlen : ob.tree.length = 0) :
    ∃ h, avlTreeFree freeKeyFun ob = some (h, ob.freed) := by
  obtain ⟨w, hw⟩ := H.load_root
  rw [H.root] at hw
  obtain ⟨h, e, _⟩ := free_spec hw
  refine ⟨h, ?_⟩
  have hroot : (some hdr : Ptr) ≠ none := by simp
  rw [avlTreeFree]
  simp only [if_neg (not_not.mpr hlen), Option.bind_eq_bind, Option.bind_some, H.root, if_pos hroot, e]

/-- `avl_tree_free` gives every stored key to the free function, as long as the length
is zero for the empty tree only. -/
theorem avlTreeFree_spec (freeKeyFun : Bool) {ob : AvlState K} {hdr : Addr} {t : BinaryTree (Cell K)}
    (H : Holds ob hdr t) (hlen : ob.tree.length = 0 ↔ t = nil) :
    ∃ h, avlTreeFree freeKeyFun ob = some (h, handOver freeKeyFun ob.freed (keys t)) := by
  cases t with
  | nil =>
    obtain ⟨h, e⟩ := avlTreeFree_zero freeKeyFun H (hlen.mpr rfl)
    refine ⟨h, e.trans ?_⟩
    cases freeKeyFun with
    | false => rfl
    | true => exact congrArg some (congrArg (Prod.mk h) (List.append_nil ob.freed).symm)
  | node c l r =>
    obtain ⟨w, hw⟩ := H.load_root
    obtain ⟨h₁, e₁, D₁⟩ := avlTreeFreeHelper_spec freeKeyFun H.focus.tree H.focus.nodup_tree
      H.height_lt.le ob.freed
    have hcell : ob.heap.cell hdr = some ⟨none, none, some c.addr, none, w⟩ := by
      rw [H.root] at hw
      exact hw
    obtain ⟨h₂, e₂, _⟩ := free_spec ((D₁.2.2 hdr H.focus.nodup_split.1).trans hcell)
    refine ⟨h₂, ?_⟩
    have hroot : (some hdr : Ptr) ≠ none := by simp
    have hne : ob.tree.length ≠ 0 := fun hz => absurd (hlen.mp hz) (by simp)
    rw [if_pos (by simp)] at e₁
    rw [avlTreeFree]
    simp only [if_pos hne, hw, Option.bind_eq_bind, Option.bind_some, e₁]
    simp only [H.root, if_pos hroot, e₂, Option.bind_some]

/-! Runs. -/

/-- The keys that a sequence of calls inserts. -/
def insertedKeys : List (Op K) → List (Option K)
  | [] => []
  | .insert key :: ops => key :: insertedKeys ops
  | .delete _ _ :: ops => insertedKeys ops

/-- A deletion is given the free function. -/
def Op.Frees : Op K → Prop
  | .insert _ => True
  | .delete freeKeyFun _ => freeKeyFun = true

/-- A deletion frees a stored key that compares equal to its argument, or nothing. -/
theorem delete_owns {ob : AvlState K} {t : BinaryTree (Cell K)} (S : Sound ob t) (k : Option K) :
    ∃ code ob' t', avlDelete true ob k = some (code, ob') ∧ Sound ob' t' ∧
      ob'.tree.compareFun = ob.tree.compareFun ∧
      (ob'.freed = ob.freed ∧ keys t' = keys t ∨
        ∃ xs e ys, keys t = xs ++ e :: ys ∧ ob.tree.compareFun k e = 0 ∧
          ob'.freed = ob.freed ++ [e] ∧ keys t' = xs ++ ys) := by
  obtain ⟨ob', e', S', hcmp⟩ := apply_spec S (.delete true k)
  have e' : avlDelete true ob k = _ := e'
  refine ⟨_, ob', _, e', S', hcmp, ?_⟩
  cases hD : deleteTree ob.tree.compareFun k t with
  | none =>
    left
    obtain ⟨ob'', e'', _, _, hfreed⟩ := avlDelete_miss S.holds true hD
    obtain rfl : ob'' = ob' := congrArg Prod.snd (Option.some.inj (e''.symm.trans e'))
    simp only [stepTree, hD]
    exact ⟨hfreed, missTree_keys hD⟩
  | some D =>
    right
    obtain ⟨xs, ys, hkeys, hkeys', he⟩ := deleteTree_keys hD
    obtain ⟨ob'', e'', _, _, hfreed⟩ := avlDelete_spec S.holds S.balanced true hD
    obtain rfl : ob'' = ob' := congrArg Prod.snd (Option.some.inj (e''.symm.trans e'))
    simp only [stepTree, hD]
    exact ⟨xs, D.key, ys, hkeys, he, hfreed, hkeys'⟩

/-- Freed and stored keys together grow by what the call inserts. -/
theorem apply_owns {ob : AvlState K} {t : BinaryTree (Cell K)} (S : Sound ob t) {op : Op K}
    (hop : op.Frees) :
    ∃ code ob' t', apply ob op = some (code, ob') ∧ Sound ob' t' ∧
      ob'.tree.compareFun = ob.tree.compareFun ∧
      (ob'.freed ++ keys t').Perm (ob.freed ++ keys t ++ insertedKeys [op]) := by
  cases op with
  | insert key =>
    obtain ⟨ob', e', S', hcmp⟩ := apply_spec S (.insert key)
    obtain ⟨ob'', e'', _, _, _, hfreed, _⟩ := avlInsert_spec S.holds S.balanced key
    obtain rfl : ob'' = ob' := congrArg Prod.snd (Option.some.inj (e''.symm.trans e'))
    refine ⟨_, ob'', _, e', S', hcmp, ?_⟩
    simp only [stepTree, insertTree_keys]
    rw [hfreed, insertPath_keys ob.tree.compareFun key t, List.append_assoc]
    refine List.Perm.append_left ob.freed (List.perm_middle.trans ?_)
    exact (List.perm_append_singleton ..).symm
  | delete freeKeyFun key =>
    obtain rfl : freeKeyFun = true := hop
    obtain ⟨code, ob', t', e', S', hcmp, hcases⟩ := delete_owns S key
    refine ⟨code, ob', t', e', S', hcmp, ?_⟩
    rw [insertedKeys, insertedKeys, List.append_nil]
    rcases hcases with ⟨hfreed, hkeys⟩ | ⟨xs, e, ys, hkeys, _, hfreed, hkeys'⟩
    · rw [hfreed, hkeys]
    · rw [hfreed, hkeys, hkeys', List.append_assoc, List.singleton_append]
      refine List.Perm.append_left ob.freed ?_
      exact List.perm_middle.symm

theorem ofNat_eq_zero_iff (n : Nat) : BitVec.ofNat 32 n = 0 ↔ 2 ^ 32 ∣ n := by
  rw [← BitVec.toNat_inj, BitVec.toNat_ofNat, Nat.dvd_iff_mod_eq_zero]
  exact Iff.rfl

theorem numNodes_eq_zero {t : BinaryTree (Cell K)} : t.numNodes = 0 ↔ t = nil := by
  cases t with
  | nil => simp
  | node c l r => simp [numNodes]

theorem insertedKeys_cons (op : Op K) (ops : List (Op K)) :
    insertedKeys (op :: ops) = insertedKeys [op] ++ insertedKeys ops := by
  cases op <;> rfl

theorem insertedKeys_replicate (key : Option K) (n : Nat) :
    insertedKeys (List.replicate n (.insert key)) = List.replicate n key := by
  induction n with
  | zero => rfl
  | succ n ih => rw [List.replicate_succ, insertedKeys, ih, List.replicate_succ]

theorem run_owns (ops : List (Op K)) (hops : ∀ op ∈ ops, op.Frees) {ob : AvlState K}
    {t : BinaryTree (Cell K)} (S : Sound ob t) :
    ∃ codes ob' t', run ops ob = some (codes, ob') ∧ Sound ob' t' ∧
      ob'.tree.compareFun = ob.tree.compareFun ∧
      (ob'.freed ++ keys t').Perm (ob.freed ++ keys t ++ insertedKeys ops) := by
  induction ops generalizing ob t with
  | nil => exact ⟨[], ob, t, rfl, S, rfl, by rw [insertedKeys, List.append_nil]⟩
  | cons op ops ih =>
    obtain ⟨code, ob₁, t₁, e₁, S₁, hcmp₁, hperm₁⟩ := apply_owns S (hops op List.mem_cons_self)
    obtain ⟨codes, ob', t', e', S', hcmp', hperm'⟩ :=
      ih (fun o ho => hops o (List.mem_cons_of_mem _ ho)) S₁
    refine ⟨code :: codes, ob', t', ?_, S', hcmp'.trans hcmp₁, ?_⟩
    · rw [run, e₁]
      simp only [Option.bind_eq_bind, Option.bind_some, e']
    · rw [insertedKeys_cons, ← List.append_assoc]
      exact hperm'.trans (hperm₁.append_right _)

theorem runNew_owns (cmp : Option K → Option K → Int) (ops : List (Op K))
    (hops : ∀ op ∈ ops, op.Frees) :
    ∃ codes ob t, runNew cmp ops = some (codes, ob) ∧ Sound ob t ∧ ob.tree.compareFun = cmp ∧
      (ob.freed ++ keys t).Perm (insertedKeys ops) := by
  obtain ⟨ob₀, e₀, H₀, hlen₀, _, hcmp₀, hfreed₀⟩ := avlTreeNew_spec cmp
  obtain ⟨codes, ob, t, e, S, hc, hperm⟩ := run_owns ops hops
    (⟨H₀, trivial, by rw [hlen₀]; rfl⟩ : Sound ob₀ nil)
  rw [hfreed₀] at hperm
  refine ⟨codes, ob, t, ?_, S, hc.trans hcmp₀, hperm⟩
  rw [runNew, e₀]
  exact e

/-- After every run whose deletions are given the free function, the freed and the stored
keys are together the inserted ones; a further deletion frees one stored key comparing
equal to its argument, or none; and `avl_tree_free` frees the rest, unless the number of
stored keys is a positive multiple of `2 ^ 32`: then it frees no key. -/
theorem run_frees_keys (cmp : Option K → Option K → Int) (ops : List (Op K))
    (hops : ∀ op ∈ ops, op.Frees) :
    ∃ codes ob s, runNew cmp ops = some (codes, ob) ∧ ob.sequence = some s ∧
      (ob.freed ++ s).Perm (insertedKeys ops) ∧
      (∀ k, ∃ code ob', avlDelete true ob k = some (code, ob') ∧
        (ob'.freed = ob.freed ∧ ob'.sequence = some s ∨
          ∃ xs e ys, s = xs ++ e :: ys ∧ cmp k e = 0 ∧ ob'.freed = ob.freed ++ [e] ∧
            ob'.sequence = some (xs ++ ys))) ∧
      ((2 ^ 32 ∣ s.length → s = []) → ∃ h freed, avlTreeFree true ob = some (h, freed) ∧
        freed.Perm (insertedKeys ops)) ∧
      (2 ^ 32 ∣ s.length → ∃ h, avlTreeFree true ob = some (h, ob.freed)) := by
  obtain ⟨codes, ob, t, e, S, hc, hperm⟩ := runNew_owns cmp ops hops
  refine ⟨codes, ob, keys t, e, S.holds.sequence, hperm, ?_, ?_, ?_⟩
  · intro k
    obtain ⟨code, ob', t', e', S', _, hcases⟩ := delete_owns S k
    refine ⟨code, ob', e', ?_⟩
    rw [hc] at hcases
    rw [S'.holds.sequence]
    rcases hcases with ⟨hfreed, hkeys⟩ | ⟨xs, x, ys, hkeys, hx, hfreed, hkeys'⟩
    · exact Or.inl ⟨hfreed, congrArg some hkeys⟩
    · exact Or.inr ⟨xs, x, ys, hkeys, hx, hfreed, congrArg some hkeys'⟩
  · intro hcount
    rw [keys_length] at hcount
    have hlen : ob.tree.length = 0 ↔ t = nil := by
      rw [S.length, ofNat_eq_zero_iff]
      refine ⟨fun hdvd => ?_, fun ht => by simp [ht]⟩
      have hnil := congrArg List.length (hcount hdvd)
      rw [keys_length] at hnil
      exact numNodes_eq_zero.mp hnil
    obtain ⟨h, hfree⟩ := avlTreeFree_spec true S.holds hlen
    exact ⟨h, _, hfree, hperm⟩
  · intro hcount
    rw [keys_length] at hcount
    refine avlTreeFree_zero true S.holds ?_
    rw [S.length, ofNat_eq_zero_iff]
    exact hcount

theorem run_frees_keys_ints : ∃ codes ob s h freed,
    runNew compareInts [.insert (some 1), .insert (some 2), .delete true (some 1)] = some (codes, ob) ∧
      ob.sequence = some s ∧ avlTreeFree true ob = some (h, freed) ∧
      freed.Perm [some 1, some 2] := by
  have hops : ∀ op ∈ [Op.insert (some (1 : Int)), .insert (some 2), .delete true (some 1)], op.Frees := by
    simp [Op.Frees]
  obtain ⟨codes, ob, s, e, hs, hperm, _, hfree, _⟩ := run_frees_keys compareInts _ hops
  have hlen : s.length ≤ 2 := by
    have h := hperm.length_eq
    rw [List.length_append] at h
    have h2 : (insertedKeys [Op.insert (some (1 : Int)), .insert (some 2),
      .delete true (some 1)]).length = 2 := rfl
    omega
  obtain ⟨h, freed, e', hp⟩ := hfree fun hdvd => by
    have hz := Nat.eq_zero_of_dvd_of_lt hdvd (by omega)
    exact List.eq_nil_of_length_eq_zero hz
  exact ⟨codes, ob, s, h, freed, e, hs, e', hp⟩

/-- After `2 ^ 32` insertions the length is zero and `avl_tree_free` frees no key. -/
theorem run_frees_no_key : ∃ codes ob h,
    runNew allEqual (List.replicate (2 ^ 32) (.insert (some ()))) = some (codes, ob) ∧
      avlTreeFree true ob = some (h, []) ∧
      ¬ ([] : List (Option Unit)).Perm
        (insertedKeys (List.replicate (2 ^ 32) (.insert (some ())))) := by
  obtain ⟨codes, ob, t, e, S, hn, _⟩ := runNew_inserts allEqual (some ()) (2 ^ 32)
  have hlen : ob.tree.length = 0 := by
    rw [S.length, hn]
    exact (ofNat_eq_zero_iff _).mpr (Nat.dvd_refl _)
  have hops : ∀ op ∈ List.replicate (2 ^ 32) (Op.insert (some ())), op.Frees := by
    intro op hop
    rw [List.eq_of_mem_replicate hop]
    trivial
  obtain ⟨codes', ob', t', e', S', _, hperm⟩ := runNew_owns allEqual _ hops
  obtain rfl : ob = ob' := congrArg Prod.snd (Option.some.inj (e.symm.trans e'))
  obtain rfl := S'.holds.unique S.holds
  -- all the inserted keys are still stored
  have hcount := hperm.length_eq
  rw [List.length_append, keys_length, hn, insertedKeys_replicate, List.length_replicate] at hcount
  have hnone : ob.freed = [] := List.eq_nil_of_length_eq_zero (by omega)
  obtain ⟨h, hfree⟩ := avlTreeFree_zero true S.holds hlen
  rw [hnone] at hfree
  refine ⟨codes, ob, h, e, hfree, fun hp => ?_⟩
  have hlength := hp.length_eq
  rw [insertedKeys_replicate, List.length_replicate] at hlength
  exact absurd hlength (by decide)

end IcecastCommon.Avl
