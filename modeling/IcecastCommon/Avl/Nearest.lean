import IcecastCommon.Avl.Failures
import IcecastCommon.Avl.Traverse

/- The nearest-key lookups of `avl.c`. `avl_get_item_by_key_most` and
   `avl_get_item_by_key_least` are mirror images: each keeps the last key it turned away
   from on one side. What a descent returns is determined by the subtree it is in and by
   the key kept so far, so no fact about the rest of the tree is needed. -/
namespace IcecastCommon.Avl
open Library BinaryTree Heap

variable {K : Type}

/-- The loop the two lookups share; `d` is the side the answer may lie on, and a key is
kept on a turn to the other side. -/
def nearestLoop (d : Side) (compareFun : Option K → Option K → Int) (h : Heap K) (key : Option K) :
    Nat → Ptr → Option K → Option (Int × Option K)
  | 0, _, _ => none
  | fuel + 1, x, value => do
    let n ← h.load x
    let compareResult := compareFun key n.key
    if compareResult = 0 then some (0, n.key)
    else if compareResult < 0 then
      let value := if d = .right then n.key else value
      match n.left with
      | some l => nearestLoop d compareFun h key fuel (some l) value
      | none => some (if value ≠ none then 0 else -1, value)
    else
      let value := if d = .left then n.key else value
      match n.right with
      | some r => nearestLoop d compareFun h key fuel (some r) value
      | none => some (if value ≠ none then 0 else -1, value)

/-- The return code and `*value_address`. -/
def nearestItem (d : Side) (tree : AvlState K) (key : Option K) : Option (Int × Option K) := do
  let root ← tree.heap.load tree.tree.root
  match root.right with
  | none => some (-1, none)
  | some x => nearestLoop d tree.tree.compareFun tree.heap key tree.heap.next (some x) none

/-- `avl_get_item_by_key_most`. -/
def avlGetItemByKeyMost (tree : AvlState K) (key : Option K) : Option (Int × Option K) :=
  nearestItem .left tree key

/-- `avl_get_item_by_key_least`. -/
def avlGetItemByKeyLeast (tree : AvlState K) (key : Option K) : Option (Int × Option K) :=
  nearestItem .right tree key

/-! The descent in a tree. -/

/-- What the loop returns in a tree when `value` is the key kept so far. -/
def nearest (d : Side) (cmp : Option K → Option K → Int) (k : Option K) :
    BinaryTree (Cell K) → Option K → Int × Option K
  | nil, value => (if value ≠ none then 0 else -1, value)
  | node c l r, value =>
    if cmp k c.key = 0 then (0, c.key)
    else if cmp k c.key < 0 then nearest d cmp k l (if d = .right then c.key else value)
    else nearest d cmp k r (if d = .left then c.key else value)

theorem nearestLoop_spec (d : Side) {cmp : Option K → Option K → Int} {h : Heap K} (key : Option K)
    {fuel : Nat} {par : Ptr} {c : Cell K} {l r : BinaryTree (Cell K)} (ht : Rep h par (node c l r))
    (hfuel : (node c l r).height ≤ fuel) (value : Option K) :
    nearestLoop d cmp h key fuel (some c.addr) value = some (nearest d cmp key (node c l r) value) := by
  induction fuel generalizing par c l r value with
  | zero => simp at hfuel
  | succ fuel ih =>
    obtain ⟨hc, hl, hr⟩ := ht
    simp only [height] at hfuel
    rw [nearestLoop, nearest]
    simp only [load_some, hc, Cell.record, Option.bind_eq_bind, Option.bind_some]
    split
    · rfl
    split
    · cases l with
      | nil => rfl
      | node cl ll lr => exact ih hl (by omega) _
    · cases r with
      | nil => rfl
      | node cr rl rr => exact ih hr (by omega) _

theorem nearestItem_spec (d : Side) {ob : AvlState K} {hdr : Addr} {t : BinaryTree (Cell K)}
    (H : Holds ob hdr t) (key : Option K) :
    nearestItem d ob key = some (nearest d ob.tree.compareFun key t none) := by
  obtain ⟨w, hw⟩ := H.load_root
  simp only [nearestItem, hw, Option.bind_eq_bind, Option.bind_some]
  cases t with
  | nil => rfl
  | node c l r => exact nearestLoop_spec d key H.focus.tree H.height_lt.le none

/-! What is found. -/

/-- The comparison that looks from side `d`. -/
def facing (d : Side) (cmp : Option K → Option K → Int) : Option K → Option K → Int :=
  match d with
  | .left => cmp
  | .right => reversed cmp

theorem facing_totalPreorder {cmp : Option K → Option K → Int} (H : TotalPreorder cmp) (d : Side) :
    TotalPreorder (facing d cmp) := by
  cases d with
  | left => exact H
  | right => exact H.reversed

/-- A descent returns a greatest key not after `k`, or what it was given. -/
def Answers (cmp : Option K → Option K → Int) (l : List (Option K)) (k value : Option K)
    (result : Int × Option K) : Prop :=
  (∃ e, Greatest cmp l k e ∧ result = (0, e)) ∨
    (∀ e ∈ l, ¬ NotAfter cmp e k) ∧ result = (if value ≠ none then 0 else -1, value)

section
variable {cmp : Option K → Option K → Int} {l near far : List (Option K)} {k value c : Option K}
  {result : Int × Option K}

/-- A turn towards the side looked from: the node and what is behind it are after `k`. -/
theorem Answers.turn (h : Answers cmp near k value result) (hl : ∀ x, x ∈ l ↔ x ∈ near ∨ x ∈ c :: far)
    (hfar : ∀ x ∈ c :: far, ¬ NotAfter cmp x k) : Answers cmp l k value result := by
  rcases h with ⟨e, he, hres⟩ | ⟨hnone, hres⟩
  · exact Or.inl ⟨e, he.skip hl hfar, hres⟩
  · refine Or.inr ⟨?_, hres⟩
    intro x hx
    rcases (hl x).mp hx with hx | hx
    · exact hnone x hx
    · exact hfar x hx

/-- A turn away from it: the node is kept and is the answer if nothing better comes. -/
theorem Answers.keep (h : Answers cmp far k c result) (hl : ∀ x, x ∈ l ↔ x ∈ c :: near ∨ x ∈ far)
    (hnull : c ≠ none) (hc : NotAfter cmp c k) (hcc : NotAfter cmp c c)
    (hnear : ∀ x ∈ near, NotAfter cmp x c)
    (hcross : ∀ x ∈ c :: near, ∀ y ∈ far, NotAfter cmp x y) : Answers cmp l k value result := by
  rcases h with ⟨e, he, hres⟩ | ⟨hnone, hres⟩
  · exact Or.inl ⟨e, he.above hl hcross, hres⟩
  · refine Or.inl ⟨c, ⟨(hl c).mpr (Or.inl List.mem_cons_self), hc, ?_⟩, ?_⟩
    · intro x hx hxk
      rcases (hl x).mp hx with hx | hx
      · rcases List.mem_cons.mp hx with rfl | hx
        · exact hcc
        · exact hnear x hx
      · exact absurd hxk (hnone x hx)
    · rw [hres, if_pos hnull]

end

/-- An ordered sequence around the root, looked at from side `d`. -/
theorem ordered_join (d : Side) {cmp : Option K → Option K → Int} {c : Cell K}
    {x y : BinaryTree (Cell K)} (h : Ordered cmp (keys (join d c x y))) :
    Ordered cmp (keys x) ∧ Ordered cmp (keys y) ∧ (∀ e ∈ keys x, NotAfter (facing d cmp) e c.key) ∧
      ∀ e ∈ keys y, NotAfter (facing d cmp) c.key e := by
  cases d with
  | left => exact ordered_node h
  | right =>
    obtain ⟨hy, hx, hyc, hcx⟩ := ordered_node h
    exact ⟨hx, hy, hcx, hyc⟩

theorem mem_keys_join (d : Side) (c : Cell K) (x y : BinaryTree (Cell K)) (e : Option K) :
    e ∈ keys (join d c x y) ↔ e ∈ keys x ∨ e = c.key ∨ e ∈ keys y := by
  cases d with
  | left => simp [keys_node]
  | right =>
    simp [keys_node]
    tauto

theorem nearest_join (d : Side) {cmp : Option K → Option K → Int} (H : TotalPreorder cmp)
    (k : Option K) (c : Cell K) (x y : BinaryTree (Cell K)) (value : Option K) :
    nearest d cmp k (join d c x y) value =
      if cmp k c.key = 0 then (0, c.key)
      else if NotAfter (facing d cmp) c.key k then nearest d cmp k y c.key
      else nearest d cmp k x value := by
  have hswap := H.swap k c.key
  have hswap' := H.swap c.key k
  cases d with
  | left =>
    have hkeep : NotAfter (facing .left cmp) c.key k ↔ ¬ cmp k c.key < 0 := by
      show cmp c.key k ≤ 0 ↔ _
      omega
    rw [if_congr hkeep rfl rfl, ite_not]
    rfl
  | right =>
    have hkeep : cmp k c.key ≠ 0 → (NotAfter (facing .right cmp) c.key k ↔ cmp k c.key < 0) := by
      intro hne
      show cmp k c.key ≤ 0 ↔ _
      omega
    rw [join_right, nearest]
    split
    · rfl
    · rename_i hne
      rw [if_congr (hkeep hne) rfl rfl]
      rfl

theorem nearest_answers (d : Side) {cmp : Option K → Option K → Int} (H : TotalPreorder cmp)
    (k : Option K) {t : BinaryTree (Cell K)} (ht : Ordered cmp (keys t)) (hnull : ∀ e ∈ keys t, e ≠ none)
    (value : Option K) :
    Answers (facing d cmp) (keys t) k value (nearest d cmp k t value) := by
  generalize hn : t.numNodes = n
  -- on the number of nodes: a turn leaves the subtree on one side of the root
  induction n using Nat.strong_induction_on generalizing t value with
  | _ n ih =>
    by_cases hnil : t = nil
    · subst hnil
      exact Or.inr ⟨by simp [keys], rfl⟩
    obtain ⟨c, x, y, rfl⟩ := exists_join d hnil
    have H' := facing_totalPreorder H d
    have hmem := mem_keys_join d c x y
    have hswap := H.swap k c.key
    have hswap' := H.swap c.key k
    obtain ⟨hx, hy, hxc, hcy⟩ := ordered_join d ht
    rw [numNodes_join] at hn
    rw [nearest_join d H]
    split
    · rename_i heq
      refine Or.inl ⟨c.key, Greatest.of_equal H' ((hmem _).mpr (Or.inr (Or.inl rfl))) ?_ ?_, rfl⟩
      all_goals
        cases d <;> simp only [facing, reversed, NotAfter] <;> omega
    split
    · rename_i hkeep
      have hrec := ih y.numNodes (by omega) hy (fun e he => hnull e ((hmem e).mpr (Or.inr (Or.inr he))))
        c.key rfl
      have hl : ∀ e, e ∈ keys (join d c x y) ↔ e ∈ c.key :: keys x ∨ e ∈ keys y := by
        intro e
        rw [hmem, List.mem_cons]
        tauto
      refine hrec.keep hl (hnull _ ((hmem _).mpr (Or.inr (Or.inl rfl)))) hkeep (H'.refl _) hxc ?_
      intro a ha b hb
      rcases List.mem_cons.mp ha with rfl | ha
      · exact hcy b hb
      · exact H'.trans _ _ _ (hxc a ha) (hcy b hb)
    · rename_i hturn
      have hrec := ih x.numNodes (by omega) hx (fun e he => hnull e ((hmem e).mpr (Or.inl he)))
        value rfl
      have hl : ∀ e, e ∈ keys (join d c x y) ↔ e ∈ keys x ∨ e ∈ c.key :: keys y := by
        intro e
        rw [hmem, List.mem_cons]
      apply hrec.turn hl
      intro e he hek
      rcases List.mem_cons.mp he with rfl | he
      · exact hturn hek
      · exact hturn (H'.trans _ _ _ (hcy e he) hek)

/-! Runs. -/

/-- After every run, failed calls included, the keys are ordered and were inserted. -/
theorem callsNew_keys {cmp : Option K → Option K → Int} (hcmp : TotalPreorder cmp)
    (calls : List (Call K)) (P : Option K → Prop) (hcalls : ∀ key, Call.insert true key ∈ calls → P key) :
    ∃ codes ob t, callsNew cmp calls = some (codes, ob) ∧ Sound ob t ∧ ob.tree.compareFun = cmp ∧
      Ordered cmp (keys t) ∧ ∀ k ∈ keys t, P k := by
  obtain ⟨ob, e, H, hlen, _, hc, _⟩ := avlTreeNew_spec cmp
  have T : Tracks callStep (fun (_ : Unit) (_ : Call K) (_ : Int) => ())
      (fun _ ob => ∃ t, Sound ob t ∧ ob.tree.compareFun = cmp ∧ Ordered cmp (keys t) ∧
        ∀ k ∈ keys t, P k)
      (fun _ _ => True) (fun call => ∀ key, call = .insert true key → P key) := by
    intro _ call ob hcall hinv
    obtain ⟨t, S, hc, hord, hP⟩ := hinv
    obtain ⟨code, ob', t', e', S', hc', hkeys⟩ := callStep_spec S call
    rw [hc] at hc' hkeys
    rcases hkeys with hkeys | ⟨op, rfl, hop⟩
    · rw [← hkeys] at hord hP
      exact ⟨code, ob', e', ⟨t', S', hc', hord, hP⟩, trivial⟩
    · refine ⟨code, ob', e', ⟨_, S', hc', stepTree_ordered hcmp _ _ op hord, ?_⟩, trivial⟩
      intro k hk
      rcases mem_keys_stepTree hk with hk | hk
      · exact hP k hk
      · exact hcall k (hop k hk)
  obtain ⟨codes, ob', hrun, ⟨t, S, hc', hord, hP⟩, _⟩ := T.run calls
    (fun call hmem key hkey => hcalls key (hkey ▸ hmem)) (h := ())
    ⟨nil, ⟨H, trivial, by rw [hlen]; rfl⟩, hc, List.Pairwise.nil, by simp [keys]⟩
  refine ⟨codes, ob', t, ?_, S, hc', hord, hP⟩
  rw [callsNew, e]
  exact hrun

/-- After every run with non-NULL keys, for every key: the lookups return 0 with a greatest
key not after it and with a least key not before it, and -1 with NULL when there is none. -/
theorem nearest_keys {cmp : Option K → Option K → Int} (hcmp : TotalPreorder cmp)
    (calls : List (Call K)) (hcalls : ∀ key, Call.insert true key ∈ calls → key ≠ none) :
    ∃ codes ob s, callsNew cmp calls = some (codes, ob) ∧ ob.sequence = some s ∧ ∀ k,
      ((∃ e ∈ s, cmp e k ≤ 0) → ∃ e, avlGetItemByKeyMost ob k = some (0, e) ∧
        e ∈ s ∧ cmp e k ≤ 0 ∧ ∀ x ∈ s, cmp x k ≤ 0 → cmp x e ≤ 0) ∧
      ((¬ ∃ e ∈ s, cmp e k ≤ 0) → avlGetItemByKeyMost ob k = some (-1, none)) ∧
      ((∃ e ∈ s, cmp k e ≤ 0) → ∃ e, avlGetItemByKeyLeast ob k = some (0, e) ∧
        e ∈ s ∧ cmp k e ≤ 0 ∧ ∀ x ∈ s, cmp k x ≤ 0 → cmp e x ≤ 0) ∧
      ((¬ ∃ e ∈ s, cmp k e ≤ 0) → avlGetItemByKeyLeast ob k = some (-1, none)) := by
  obtain ⟨codes, ob, t, e, S, hc, hord, hnull⟩ :=
    callsNew_keys hcmp calls (fun key => key ≠ none) hcalls
  refine ⟨codes, ob, keys t, e, S.holds.sequence, fun k => ?_⟩
  have hmost : avlGetItemByKeyMost ob k = some (nearest .left cmp k t none) := by
    rw [avlGetItemByKeyMost, nearestItem_spec .left S.holds, hc]
  have hleast : avlGetItemByKeyLeast ob k = some (nearest .right cmp k t none) := by
    rw [avlGetItemByKeyLeast, nearestItem_spec .right S.holds, hc]
  have most := nearest_answers .left hcmp k hord hnull none
  have least := nearest_answers .right hcmp k hord hnull none
  rw [hmost, hleast]
  refine ⟨?_, ?_, ?_, ?_⟩
  · rintro ⟨x, hx, hxk⟩
    rcases most with ⟨e, he, hres⟩ | ⟨hnone, _⟩
    · exact ⟨e, by rw [hres], he.mem, he.notAfter, he.greatest⟩
    · exact absurd hxk (hnone x hx)
  · intro hno
    rcases most with ⟨e, he, _⟩ | ⟨_, hres⟩
    · exact absurd ⟨e, he.mem, he.notAfter⟩ hno
    · rw [hres]
      rfl
  · rintro ⟨x, hx, hxk⟩
    rcases least with ⟨e, he, hres⟩ | ⟨hnone, _⟩
    · exact ⟨e, by rw [hres], he.mem, he.notAfter, he.greatest⟩
    · exact absurd hxk (hnone x hx)
  · intro hno
    rcases least with ⟨e, he, _⟩ | ⟨_, hres⟩
    · exact absurd ⟨e, he.mem, he.notAfter⟩ hno
    · rw [hres]
      rfl

theorem nearest_keys_ints :
    ∃ codes ob s, callsNew compareInts [.insert true (some 2), .insert false (some 5),
        .insert true (some 8), .delete false (some 4)] = some (codes, ob) ∧ ob.sequence = some s ∧
      ∃ e, avlGetItemByKeyMost ob (some 6) = some (0, e) ∧ e ∈ s ∧ compareInts e (some 6) ≤ 0 ∧
        ∀ x ∈ s, compareInts x (some 6) ≤ 0 → compareInts x e ≤ 0 := by
  have hcalls : ∀ key, Call.insert true key ∈ [Call.insert true (some (2 : Int)),
      .insert false (some 5), .insert true (some 8), .delete false (some 4)] → key ≠ none := by
    intro key hkey
    simp only [List.mem_cons, Call.insert.injEq, List.not_mem_nil, or_false, reduceCtorEq] at hkey
    rcases hkey with ⟨_, rfl⟩ | ⟨h, _⟩ | ⟨_, rfl⟩ <;> simp_all
  obtain ⟨codes, ob, s, e, hs, h⟩ := nearest_keys compareInts_totalPreorder _ hcalls
  refine ⟨codes, ob, s, e, hs, (h (some 6)).1 ⟨some 2, ?_, by decide⟩⟩
  have hseq : (callsNew compareInts [.insert true (some 2), .insert false (some 5),
      .insert true (some 8), .delete false (some 4)]).bind (fun r => r.2.sequence) =
        some [some 2, some 8] := by decide
  rw [e] at hseq
  obtain rfl := Option.some.inj (hs.symm.trans hseq)
  simp

end IcecastCommon.Avl
