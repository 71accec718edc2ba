import IcecastCommon.Avl.Spans
import Mathlib.Data.Nat.Fib.Basic

/- A tree with exact ranks in which the span of a key is cut short. "search right" compares
   its position with the length, an `unsigned int`, so it needs `2 ^ 32` nodes; exact ranks
   allow that many when the left subtrees stay small. This file

   1. shows that every balanced tree with keys in order is reached by insertions alone: a
      leaf on the taller side can be taken away without unbalancing anything, and putting it
      back makes no rotation (`built`);
   2. gives shapes of balanced trees by their heights and counts their nodes;
   3. inserts a third equal key, which makes a rotation: then the key that the search finds
      is not the last equal one. -/
namespace IcecastCommon.Avl
open Library BinaryTree Heap

variable {α β K : Type}

/-! Insertions without rotations. -/

/-- The heights of the children of every node differ by at most one. -/
def Level : BinaryTree α → Prop
  | nil => True
  | node _ l r => l.height ≤ r.height + 1 ∧ r.height ≤ l.height + 1 ∧ Level l ∧ Level r

@[simp] theorem height_map (f : α → β) (t : BinaryTree α) : (t.map f).height = t.height := by
  induction t with
  | nil => rfl
  | node a l r ihl ihr => simp only [map, height, ihl, ihr]

theorem level_map (f : α → β) (t : BinaryTree α) : Level (t.map f) ↔ Level t := by
  induction t with
  | nil => rfl
  | node a l r ihl ihr => simp only [map, Level, height_map, ihl, ihr]

theorem Level.of_plug {fs : List (Frame α)} {t : BinaryTree α} (h : Level (plug fs t)) : Level t := by
  induction fs generalizing t with
  | nil => exact h
  | cons f fs ih =>
    have hf := ih h
    rcases f with ⟨_ | _, a, s⟩
    · exact hf.2.2.1
    · exact hf.2.2.2

/-- The keys of a tree in their places. -/
abbrev labels (t : BinaryTree (Cell K)) : BinaryTree (Option K) := t.map Cell.key

theorem labels_node (c : Cell K) (l r : BinaryTree (Cell K)) :
    labels (node c l r) = node c.key (labels l) (labels r) := rfl

/-- A frame with its key only. -/
def Frame.label (f : Frame (Cell K)) : Frame (Option K) := ⟨f.side, f.value.key, labels f.sibling⟩

theorem labels_join (d : Side) (a : Cell K) (x y : BinaryTree (Cell K)) :
    labels (join d a x y) = join d a.key (labels x) (labels y) := by
  cases d <;> rfl

theorem labels_plug (fs : List (Frame (Cell K))) (t : BinaryTree (Cell K)) :
    labels (plug fs t) = plug (fs.map Frame.label) (labels t) := by
  induction fs generalizing t with
  | nil => rfl
  | cons f fs ih =>
    rw [plug_cons, ih, List.map_cons, plug_cons, Frame.plug, labels_join]
    rfl

theorem labels_settle (fs : List (Frame (Cell K))) (t : BinaryTree (Cell K)) :
    labels (plug (fs.map settle) t) = labels (plug fs t) := by
  rw [labels_plug, labels_plug, List.map_map]
  rfl

/-- The place of a new key, as the descent finds it. -/
def hang (cmp : Option K → Option K → Int) (k : Option K) : BinaryTree (Option K) → BinaryTree (Option K)
  | nil => node k nil nil
  | node a l r => if cmp k a < 1 then node a (hang cmp k l) r else node a l (hang cmp k r)

theorem labels_insertPath (cmp : Option K → Option K → Int) (new : Cell K) (fs : List (Frame (Cell K)))
    (t : BinaryTree (Cell K)) :
    labels (plug (insertPath cmp new.key fs t) (node new nil nil)) =
      plug (fs.map Frame.label) (hang cmp new.key (labels t)) := by
  induction t generalizing fs with
  | nil =>
    rw [insertPath, labels_plug]
    rfl
  | node c l r ihl ihr =>
    rw [insertPath, labels_node, hang]
    split
    · rw [ihl]
      rfl
    · rw [ihr]
      rfl

/-- Where the new leaf keeps the tree level, the critical node does not lean to its side. -/
theorem critical_not_tall {cmp : Option K → Option K → Int} {new : Cell K} {t : BinaryTree (Cell K)}
    {below above : List (Frame (Cell K))} {s : Frame (Cell K)} (hnew : new.bal = 0) (ht : AvlBalanced t)
    (h : critical (insertPath cmp new.key [] t) = some (below, s, above))
    (hlevel : Level (hang cmp new.key (labels t))) :
    s.value.bal = 0 ∨ s.value.bal = -s.side.sign := by
  obtain ⟨_, hs, _, hheight, _⟩ := critical_ready hnew ht h
  obtain ⟨e, _, _⟩ := critical_spec h
  have hplug := labels_insertPath cmp new [] t
  rw [List.map_nil, plug_nil, e, plug_append, plug_cons, labels_plug] at hplug
  rw [← hplug] at hlevel
  have hs' := hlevel.of_plug
  rw [level_map] at hs'
  have hgrown : (plug below (node new nil nil)).height = heightUp below 0 + 1 := by
    have hsettle := congrArg height (labels_settle below (node new nil nil))
    rw [height_map, height_map] at hsettle
    rw [← hsettle, hheight]
  obtain ⟨hb, hlo, hhi, _⟩ := hs
  rcases s with ⟨_ | _, a, sib⟩
  · have hle := hs'.1
    simp only [hgrown] at hle
    simp only [Side.sign_left] at hb hlo hhi ⊢
    omega
  · have hle := hs'.2.1
    simp only [hgrown] at hle
    simp only [Side.sign_right] at hb hlo hhi ⊢
    omega

/-- An insertion that leaves the tree level makes no rotation. -/
theorem insertTree_labels {cmp : Option K → Option K → Int} {new : Cell K} {t : BinaryTree (Cell K)}
    (hnew : new.bal = 0) (ht : AvlBalanced t) (hlevel : Level (hang cmp new.key (labels t))) :
    labels (insertTree cmp new t).1 = hang cmp new.key (labels t) := by
  have hpath := labels_insertPath cmp new [] t
  rw [List.map_nil, plug_nil] at hpath
  cases h : critical (insertPath cmp new.key [] t) with
  | none =>
    rw [insertTree, h]
    rw [critical_eq_none.mp h, plug_nil] at hpath
    exact hpath
  | some bsa =>
    obtain ⟨below, s, above⟩ := bsa
    obtain ⟨e, _, _⟩ := critical_spec h
    have hside : s.side.sign ≠ 0 := by cases s.side <;> decide
    rw [insertTree_eq h, labels_plug, ← hpath, e, plug_append, plug_cons, labels_plug]
    congr 1
    rw [insertFix]
    split
    · rw [labels_join, labels_settle, Frame.plug, labels_join]
      rfl
    · rename_i h0
      have hlean := (critical_not_tall hnew ht h hlevel).resolve_left h0
      rw [if_pos hlean, labels_join, labels_settle, Frame.plug, labels_join]
      rfl

/-! Building a tree leaf by leaf. -/

/-- The descent for a key of either subtree goes to that side. -/
def SearchTree (cmp : Option K → Option K → Int) : BinaryTree (Option K) → Prop
  | nil => True
  | node a l r => (∀ e ∈ inorder l, cmp e a < 1) ∧ (∀ e ∈ inorder r, ¬ cmp e a < 1) ∧
      SearchTree cmp l ∧ SearchTree cmp r

theorem mem_hang {cmp : Option K → Option K → Int} {k : Option K} {u : BinaryTree (Option K)}
    {e : Option K} : e ∈ inorder (hang cmp k u) ↔ e = k ∨ e ∈ inorder u := by
  induction u with
  | nil => simp [hang]
  | node a l r ihl ihr =>
    rw [hang]
    split
    · simp only [inorder_node, List.mem_append, List.mem_cons, ihl, or_assoc]
    · simp only [inorder_node, List.mem_append, List.mem_cons, ihr]
      rw [or_left_comm (b := e = k), or_left_comm (b := e = k)]

/-- A leaf on the taller side of every node can be taken away. -/
theorem exists_hang {cmp : Option K → Option K → Int} {T : BinaryTree (Option K)} (hT : T ≠ nil)
    (hlevel : Level T) (hsearch : SearchTree cmp T) :
    ∃ k u, hang cmp k u = T ∧ Level u ∧ SearchTree cmp u ∧ u.numNodes + 1 = T.numNodes ∧
      u.height ≤ T.height ∧ T.height ≤ u.height + 1 := by
  induction T with
  | nil => exact absurd rfl hT
  | node a l r ihl ihr =>
    obtain ⟨hlr, hrl, hll, hlevelr⟩ := hlevel
    obtain ⟨hsl, hsr, hsearchl, hsearchr⟩ := hsearch
    by_cases htaller : r.height ≤ l.height ∧ l ≠ nil
    · -- from the left
      obtain ⟨k, u, rfl, hu, hsu, hcount, hle, hge⟩ := ihl htaller.2 hll hsearchl
      have hk := hsl k (mem_hang.mpr (Or.inl rfl))
      refine ⟨k, node a u r, by rw [hang, if_pos hk], ⟨by omega, by omega, hu, hlevelr⟩, ?_, ?_, ?_, ?_⟩
      · exact ⟨fun e he => hsl e (mem_hang.mpr (Or.inr he)), hsr, hsu, hsearchr⟩
      all_goals
        simp only [numNodes, height]
        omega
    · by_cases hr : r = nil
      · -- the root is the leaf
        have hl : l = nil := by
          by_contra hl
          exact htaller ⟨by rw [hr]; exact Nat.zero_le _, hl⟩
        subst hl hr
        exact ⟨a, nil, rfl, trivial, trivial, rfl, Nat.zero_le _, Nat.le_refl _⟩
      · -- from the right
        obtain ⟨k, u, rfl, hu, hsu, hcount, hle, hge⟩ := ihr hr hlevelr hsearchr
        have hk := hsr k (mem_hang.mpr (Or.inl rfl))
        have htall : l.height ≤ (hang cmp k u).height := by
          by_contra hlt
          refine htaller ⟨by omega, ?_⟩
          rintro rfl
          simp at hlt
        refine ⟨k, node a l u, by rw [hang, if_neg hk], ⟨by omega, by omega, hll, hu⟩, ?_, ?_, ?_, ?_⟩
        · exact ⟨hsl, fun e he => hsr e (mem_hang.mpr (Or.inr he)), hsearchl, hsu⟩
        all_goals
          simp only [numNodes, height]
          omega

/-- The state after one more successful insertion. -/
theorem insert_grows {cmp : Option K → Option K → Int} {calls : List (Call K)} {codes : List Int}
    {ob : AvlState K} {t : BinaryTree (Cell K)} (hrun : callsNew cmp calls = some (codes, ob))
    (S : Sound ob t) (hcmp : ob.tree.compareFun = cmp) (k : Option K) :
    ∃ ob', callsNew cmp (calls ++ [.insert true k]) = some (codes ++ [0], ob') ∧
      Sound ob' (insertTree cmp (freshCell ob.heap.next k) t).1 ∧ ob'.tree.compareFun = cmp := by
  obtain ⟨ob', e, S', hcmp'⟩ := apply_spec S (.insert k)
  rw [hcmp] at e S' hcmp'
  refine ⟨ob', ?_, S', hcmp'⟩
  rw [callsNew, Option.bind_eq_bind] at hrun
  obtain ⟨ob₀, hnew, hcalls⟩ := Option.bind_eq_some_iff.mp hrun
  rw [callsNew, hnew]
  have hlast : runCalls callStep [.insert true k] ob = some ([0], ob') := by
    show (callStep (.insert true k) ob).bind _ = _
    have e : callStep (.insert true k) ob = some (0, ob') := e
    rw [e]
    rfl
  show runCalls callStep _ ob₀ = _
  rw [runCalls_append hcalls, hlast]
  rfl

/-- Every level search tree is reached by insertions. -/
theorem built (cmp : Option K → Option K → Int) {T : BinaryTree (Option K)} (hlevel : Level T)
    (hsearch : SearchTree cmp T) :
    ∃ (ks : List (Option K)) (codes : List Int) (ob : AvlState K) (t : BinaryTree (Cell K)),
      callsNew cmp (ks.map (Call.insert true)) = some (codes, ob) ∧
      (∀ c ∈ codes, c = 0) ∧ (∀ k ∈ ks, k ∈ inorder T) ∧ Sound ob t ∧ ob.tree.compareFun = cmp ∧ labels t = T := by
  generalize hn : T.numNodes = n
  induction n generalizing T with
  | zero =>
    have hnil : T = nil := by
      cases T with
      | nil => rfl
      | node a l r => simp at hn
    subst hnil
    obtain ⟨ob, e, H, hlen, _, hc, _⟩ := avlTreeNew_spec cmp
    refine ⟨[], [], ob, nil, ?_, by simp, by simp, ⟨H, trivial, by rw [hlen]; rfl⟩, hc, rfl⟩
    rw [List.map_nil, callsNew, e]
    rfl
  | succ n ih =>
    have hT : T ≠ nil := by
      rintro rfl
      simp at hn
    obtain ⟨k, u, rfl, hu, hsu, hcount, _⟩ := exists_hang hT hlevel hsearch
    obtain ⟨ks, codes, ob, t, e, hcodes, hks, S, hc, hlabels⟩ := ih hu hsu (by omega)
    obtain ⟨ob', e', S', hc'⟩ := insert_grows e S hc k
    rw [← hlabels] at hlevel
    refine ⟨ks ++ [k], codes ++ [0], ob', _, ?_, ?_, ?_, S', hc', ?_⟩
    · rw [List.map_append]
      exact e'
    · intro c hmem
      rcases List.mem_append.mp hmem with hmem | hmem
      · exact hcodes c hmem
      · exact List.mem_singleton.mp hmem
    · intro x hx
      rw [mem_hang]
      rcases List.mem_append.mp hx with hx | hx
      · exact Or.inr (hks x hx)
      · exact Or.inl (List.mem_singleton.mp hx)
    · rw [← hlabels]
      exact insertTree_labels (freshCell_bal ..) S.balanced hlevel

/-! Shapes. A node is marked when its key is to equal the one before it. -/

/-- The full tree of height `n`. -/
def full : Nat → BinaryTree Bool
  | 0 => nil
  | n + 1 => node false (full n) (full n)

/-- The smallest tree of height `n`. -/
def sparse : Nat → BinaryTree Bool
  | 0 => nil
  | 1 => node false nil nil
  | n + 2 => node false (sparse (n + 1)) (sparse n)

/-- A tree of height `29 + n` that is little larger than the full one of height 29. -/
def tall : Nat → BinaryTree Bool
  | 0 => full 29
  | n + 1 => node false (tall n) (sparse (28 + n))

/-- The tree of height `n + 2` on the left of the right spine. -/
def side (n : Nat) : BinaryTree Bool := if n < 27 then sparse (n + 2) else tall (n - 27)

/-- The right spine; at its end is a marked node below which there is one node. -/
def spine : Nat → BinaryTree Bool
  | 0 => node true (node false nil nil) nil
  | n + 1 => node false (side n) (spine n)

theorem full_spec (n : Nat) : (full n).height = n ∧ Level (full n) ∧ (full n).numNodes + 1 = 2 ^ n := by
  induction n with
  | zero => exact ⟨rfl, trivial, rfl⟩
  | succ n ih =>
    obtain ⟨hh, hl, hn⟩ := ih
    refine ⟨by simp only [full, height, hh, max_self], ⟨by omega, by omega, hl, hl⟩, ?_⟩
    simp only [full, numNodes]
    rw [Nat.pow_succ]
    omega

theorem sparse_spec (n : Nat) :
    (sparse n).height = n ∧ Level (sparse n) ∧ (sparse n).numNodes + 1 = Nat.fib (n + 2) := by
  induction n using Nat.twoStepInduction with
  | zero => exact ⟨rfl, trivial, rfl⟩
  | one => exact ⟨rfl, by simp [sparse, Level], rfl⟩
  | more n ih₀ ih₁ =>
    obtain ⟨hh₀, hl₀, hn₀⟩ := ih₀
    obtain ⟨hh₁, hl₁, hn₁⟩ := ih₁
    refine ⟨?_, ⟨by omega, by omega, hl₁, hl₀⟩, ?_⟩
    · simp only [sparse, height, hh₀, hh₁]
      omega
    · have hfib : Nat.fib (n + 2 + 2) = Nat.fib (n + 2) + Nat.fib (n + 1 + 2) := Nat.fib_add_two
      simp only [sparse, numNodes]
      omega

theorem tall_spec (n : Nat) : (tall n).height = 29 + n ∧ Level (tall n) := by
  induction n with
  | zero => exact ⟨(full_spec 29).1, (full_spec 29).2.1⟩
  | succ n ih =>
    obtain ⟨hh, hl⟩ := ih
    obtain ⟨hhs, hls, _⟩ := sparse_spec (28 + n)
    refine ⟨?_, ⟨by omega, by omega, hl, hls⟩⟩
    simp only [tall, height, hh, hhs]
    omega

theorem tall_numNodes (n : Nat) : (tall n).numNodes + Nat.fib 31 = 2 ^ 29 - 1 + Nat.fib (n + 31) := by
  induction n with
  | zero =>
    have h := (full_spec 29).2.2
    show (full 29).numNodes + Nat.fib 31 = 2 ^ 29 - 1 + Nat.fib 31
    omega
  | succ n ih =>
    have h := (sparse_spec (28 + n)).2.2
    rw [show 28 + n + 2 = n + 30 by omega] at h
    have hfib : Nat.fib (n + 1 + 31) = Nat.fib (n + 30) + Nat.fib (n + 31) := Nat.fib_add_two
    simp only [tall, numNodes]
    omega

theorem side_spec (n : Nat) : (side n).height = n + 2 ∧ Level (side n) := by
  rw [side]
  split
  · obtain ⟨hh, hl, _⟩ := sparse_spec (n + 2)
    exact ⟨hh, hl⟩
  · obtain ⟨hh, hl⟩ := tall_spec (n - 27)
    exact ⟨by omega, hl⟩

theorem spine_spec (n : Nat) : (spine n).height = n + 2 ∧ Level (spine n) := by
  induction n with
  | zero => exact ⟨rfl, by simp [spine, Level]⟩
  | succ n ih =>
    obtain ⟨hh, hl⟩ := ih
    obtain ⟨hhs, hls⟩ := side_spec n
    refine ⟨?_, ⟨by omega, by omega, hls, hl⟩⟩
    simp only [spine, height, hh, hhs, max_self]

/-- No tree on the left of the spine outgrows the rank field. -/
theorem side_numNodes {n : Nat} (hn : n < 35) : (side n).numNodes + 1 < 2 ^ 30 - 1 := by
  rw [side]
  split
  · have h := (sparse_spec (n + 2)).2.2
    have hmono : Nat.fib (n + 2 + 2) ≤ Nat.fib 31 := Nat.fib_mono (by omega)
    have hfib : Nat.fib 31 = 1346269 := by norm_num
    omega
  · have h := tall_numNodes (n - 27)
    have hmono : Nat.fib (n - 27 + 31) ≤ Nat.fib 38 := Nat.fib_mono (by omega)
    have hfib : Nat.fib 38 = 39088169 := by norm_num
    omega

theorem spine_numNodes_sparse {n : Nat} (hn : n ≤ 27) : (spine n).numNodes + 3 = Nat.fib (n + 5) := by
  induction n with
  | zero => rfl
  | succ n ih =>
    have ih := ih (by omega)
    have h := (sparse_spec (n + 2)).2.2
    have hfib : Nat.fib (n + 1 + 5) = Nat.fib (n + 2 + 2) + Nat.fib (n + 5) := Nat.fib_add_two
    have hside : side n = sparse (n + 2) := if_pos (by omega)
    simp only [spine, numNodes, hside]
    omega

theorem spine_numNodes_tall (n : Nat) : (spine (27 + n)).numNodes + n * (Nat.fib 31) + Nat.fib 32 + 3 =
    (spine 27).numNodes + n * 2 ^ 29 + Nat.fib (n + 32) + 3 := by
  induction n with
  | zero => simp
  | succ n ih =>
    have h := tall_numNodes n
    have hfib : Nat.fib (n + 1 + 32) = Nat.fib (n + 31) + Nat.fib (n + 32) := Nat.fib_add_two
    have hside : side (27 + n) = tall n := by
      rw [side, if_neg (by omega), Nat.add_sub_cancel_left]
    have hspine : (spine (27 + (n + 1))).numNodes = (tall n).numNodes + (spine (27 + n)).numNodes + 1 := by
      rw [show 27 + (n + 1) = 27 + n + 1 by omega, spine, numNodes, hside]
    rw [hspine, Nat.succ_mul, Nat.succ_mul]
    omega

/-- The spine of 35 nodes holds more than `2 ^ 32` nodes. -/
theorem spine_numNodes : 2 ^ 32 < (spine 35).numNodes ∧ (spine 35).numNodes < 2 ^ 33 - 1 := by
  have hlow := spine_numNodes_sparse (Nat.le_refl 27)
  have hhigh := spine_numNodes_tall 8
  have h31 : Nat.fib 31 = 1346269 := by norm_num
  have h32 : Nat.fib 32 = 2178309 := by norm_num
  have h40 : Nat.fib 40 = 102334155 := by norm_num
  have e32 : Nat.fib (27 + 5) = Nat.fib 32 := rfl
  have e40 : Nat.fib (8 + 32) = Nat.fib 40 := rfl
  have e35 : spine (27 + 8) = spine 35 := rfl
  rw [e32] at hlow
  rw [e35, e40] at hhigh
  omega

/-! Keys for a shape. -/

/-- The unmarked nodes. -/
def weight : BinaryTree Bool → Int
  | nil => 0
  | node same l r => weight l + (if same then 0 else 1) + weight r

/-- The nodes numbered from `n + 1` on, a marked one as the one before it. -/
def number (n : Int) : BinaryTree Bool → BinaryTree (Option Int)
  | nil => nil
  | node same l r =>
    node (some (n + weight l + if same then 0 else 1)) (number n l)
      (number (n + weight l + if same then 0 else 1) r)

/-- A marked node has an unmarked one before it. -/
def Proper : BinaryTree Bool → Prop
  | nil => True
  | node same l r => (same = true → 0 < weight l) ∧ Proper l ∧ Proper r

theorem weight_nonneg (t : BinaryTree Bool) : 0 ≤ weight t := by
  induction t with
  | nil => exact Int.le_refl 0
  | node same l r ihl ihr =>
    rw [weight]
    split <;> omega

theorem number_unit (n : Int) (t : BinaryTree Bool) :
    (number n t).map (fun _ => ()) = t.map (fun _ => ()) := by
  induction t generalizing n with
  | nil => rfl
  | node same l r ihl ihr =>
    show node () _ _ = node () _ _
    rw [ihl, ihr]

/-- The numbers lie behind `n`, and those of a tree behind the ones of its left subtree. -/
theorem number_bounds {n : Int} {t : BinaryTree Bool} (ht : Proper t) :
    ∀ e ∈ inorder (number n t), ∃ i, e = some i ∧ n < i ∧ i ≤ n + weight t := by
  induction t generalizing n with
  | nil => simp [number]
  | node same l r ihl ihr =>
    obtain ⟨hsame, hl, hr⟩ := ht
    have hwl := weight_nonneg l
    have hwr := weight_nonneg r
    intro e he
    rw [number, inorder_node, List.mem_append, List.mem_cons] at he
    rw [weight]
    rcases he with he | rfl | he
    · obtain ⟨i, rfl, hlo, hhi⟩ := ihl hl e he
      refine ⟨i, rfl, hlo, ?_⟩
      split <;> omega
    · refine ⟨_, rfl, ?_, by omega⟩
      cases same with
      | true =>
        have := hsame rfl
        rw [if_pos rfl]
        omega
      | false =>
        rw [if_neg (by simp)]
        omega
    · obtain ⟨i, rfl, hlo, hhi⟩ := ihr hr e he
      refine ⟨i, rfl, ?_, by omega⟩
      revert hlo
      split <;> omega

theorem number_search {n : Int} {t : BinaryTree Bool} (ht : Proper t) :
    SearchTree compareInts (number n t) := by
  induction t generalizing n with
  | nil => trivial
  | node same l r ihl ihr =>
    obtain ⟨_, hl, hr⟩ := ht
    refine ⟨?_, ?_, ihl hl, ihr hr⟩
    · intro e he
      obtain ⟨i, rfl, _, hhi⟩ := number_bounds hl e he
      simp only [compareInts, Option.getD_some]
      split <;> omega
    · intro e he
      obtain ⟨i, rfl, hlo, _⟩ := number_bounds hr e he
      simp only [compareInts, Option.getD_some]
      omega

/-- A shape without marks. -/
def Unmarked : BinaryTree Bool → Prop
  | nil => True
  | node same l r => same = false ∧ Unmarked l ∧ Unmarked r

theorem Unmarked.proper {t : BinaryTree Bool} (ht : Unmarked t) : Proper t := by
  induction t with
  | nil => trivial
  | node same l r ihl ihr =>
    obtain ⟨rfl, hl, hr⟩ := ht
    exact ⟨by simp, ihl hl, ihr hr⟩

theorem full_unmarked (n : Nat) : Unmarked (full n) := by
  induction n with
  | zero => trivial
  | succ n ih => exact ⟨rfl, ih, ih⟩

theorem sparse_unmarked (n : Nat) : Unmarked (sparse n) := by
  induction n using Nat.twoStepInduction with
  | zero => trivial
  | one => exact ⟨rfl, trivial, trivial⟩
  | more n ih₀ ih₁ => exact ⟨rfl, ih₁, ih₀⟩

theorem tall_unmarked (n : Nat) : Unmarked (tall n) := by
  induction n with
  | zero => exact full_unmarked 29
  | succ n ih => exact ⟨rfl, ih, sparse_unmarked _⟩

theorem side_unmarked (n : Nat) : Unmarked (side n) := by
  rw [side]
  split
  · exact sparse_unmarked _
  · exact tall_unmarked _

theorem spine_proper (n : Nat) : Proper (spine n) := by
  induction n with
  | zero => simp [spine, Proper, weight]
  | succ n ih => exact ⟨by simp, (side_unmarked n).proper, ih⟩

/-- A path along right children whose keys are smaller than `k`. -/
def RightPath (cmp : Option K → Option K → Int) (k : Option K) (fs : List (Frame (Option K))) : Prop :=
  ∀ f ∈ fs, f.side = .right ∧ 0 < cmp k f.value

/-- At the end of the numbered spine the largest key is there twice. -/
theorem spine_end (n : Int) (m : Nat) : ∃ fs k, 0 < weight (spine m) ∧ k = some (n + weight (spine m)) ∧
    number n (spine m) = plug fs (node k (node k nil nil) nil) ∧ RightPath compareInts k fs := by
  induction m generalizing n with
  | zero => exact ⟨[], some (n + 1), by decide, rfl, by simp [number, spine, weight], by simp [RightPath]⟩
  | succ m ih =>
    obtain ⟨fs, k, hpos, hk, hplug, hpath⟩ := ih (n + weight (side m) + 1)
    have hside := weight_nonneg (side m)
    refine ⟨fs ++ [⟨.right, some (n + weight (side m) + 1), number n (side m)⟩], k, ?_, ?_, ?_, ?_⟩
    · simp only [spine, weight, Bool.false_eq_true, if_false]
      omega
    · rw [hk]
      simp only [spine, weight, Bool.false_eq_true, if_false]
      congr 1
      omega
    · rw [plug_append, ← hplug]
      rfl
    · intro f hf
      rcases List.mem_append.mp hf with hf | hf
      · exact hpath f hf
      · obtain rfl := List.mem_singleton.mp hf
        refine ⟨rfl, ?_⟩
        rw [hk]
        simp only [compareInts, Option.getD_some]
        omega

/-! The third equal key. -/

theorem labels_eq_join {t : BinaryTree (Cell K)} {d : Side} {a : Option K} {x y : BinaryTree (Option K)}
    (h : labels t = join d a x y) :
    ∃ c x' y', t = join d c x' y' ∧ c.key = a ∧ labels x' = x ∧ labels y' = y := by
  cases t with
  | nil => cases d <;> cases h
  | node c l r =>
    cases d with
    | left =>
      obtain ⟨ha, hx, hy⟩ := node.inj h
      exact ⟨c, l, r, rfl, ha, hx, hy⟩
    | right =>
      obtain ⟨ha, hy, hx⟩ := node.inj h
      exact ⟨c, r, l, rfl, ha, hx, hy⟩

theorem labels_eq_plug {t : BinaryTree (Cell K)} {gs : List (Frame (Option K))}
    {u : BinaryTree (Option K)} (h : labels t = plug gs u) :
    ∃ fs v, t = plug fs v ∧ fs.map Frame.label = gs ∧ labels v = u := by
  induction gs generalizing u with
  | nil => exact ⟨[], t, rfl, rfl, h⟩
  | cons g gs ih =>
    obtain ⟨fs, w, rfl, rfl, hw⟩ := ih h
    obtain ⟨c, x, y, rfl, hc, hx, hy⟩ := labels_eq_join hw
    refine ⟨⟨g.side, c, y⟩ :: fs, x, rfl, ?_, hx⟩
    rw [List.map_cons, Frame.label, hc, hy]

section
variable {cmp : Option K → Option K → Int} {k : Option K} {fs : List (Frame (Cell K))}

theorem RightPath.insertPath (h : RightPath cmp k (fs.map Frame.label)) (gs : List (Frame (Cell K)))
    (t : BinaryTree (Cell K)) : insertPath cmp k gs (plug fs t) = insertPath cmp k (fs ++ gs) t := by
  induction fs generalizing t with
  | nil => rfl
  | cons f fs ih =>
    obtain ⟨hside, hkey⟩ := h (Frame.label f) List.mem_cons_self
    have hkey : 0 < cmp k f.value.key := hkey
    obtain ⟨d, v, s⟩ := f
    obtain rfl : d = .right := hside
    rw [plug_cons, ih fun g hg => h g (List.mem_cons_of_mem _ hg)]
    show Avl.insertPath cmp k (fs ++ gs) (node v s t) = _
    rw [Avl.insertPath, if_neg (by simp only at hkey; omega)]
    rfl

theorem RightPath.locate (h : RightPath cmp k (fs.map Frame.label)) (t : BinaryTree (Cell K)) :
    locate cmp k (plug fs t) = (outside fs + (locate cmp k t).1, (locate cmp k t).2) := by
  induction fs generalizing t with
  | nil => rw [plug_nil, outside, Nat.zero_add]
  | cons f fs ih =>
    obtain ⟨hside, hkey⟩ := h (Frame.label f) List.mem_cons_self
    have hkey : 0 < cmp k f.value.key := hkey
    obtain ⟨d, v, s⟩ := f
    obtain rfl : d = .right := hside
    have hroot : Avl.locate cmp k (node v s t) =
        (s.numNodes + 1 + (Avl.locate cmp k t).1, (Avl.locate cmp k t).2) := by
      rw [Avl.locate, if_neg (by simp only at hkey; omega), if_pos hkey]
    have hout : outside fs + (s.numNodes + 1 + (Avl.locate cmp k t).1) =
        outside (⟨.right, v, s⟩ :: fs) + (Avl.locate cmp k t).1 := by
      simp only [outside]
      omega
    rw [plug_cons, ih fun g hg => h g (List.mem_cons_of_mem _ hg), ← hout]
    exact congrArg (fun r => (outside fs + r.1, r.2)) hroot

theorem RightPath.sizesFit (h : RightPath cmp k (fs.map Frame.label)) {R : Cell K → Nat → Prop} {m n : Nat}
    (hfit : SizesFit R fs m) : SizesFit R fs n := by
  induction fs generalizing m n with
  | nil => trivial
  | cons f fs ih =>
    obtain ⟨hside, _⟩ := h (Frame.label f) List.mem_cons_self
    obtain ⟨d, v, s⟩ := f
    obtain rfl : d = .right := hside
    exact ⟨hfit.1, ih (fun g hg => h g (List.mem_cons_of_mem _ hg)) hfit.2⟩

theorem RightPath.inorder (h : RightPath cmp k (fs.map Frame.label)) (t : BinaryTree (Cell K)) :
    inorder (plug fs t) = before fs ++ inorder t ∧ (before fs).length = outside fs := by
  induction fs generalizing t with
  | nil => exact ⟨rfl, rfl⟩
  | cons f fs ih =>
    obtain ⟨hside, _⟩ := h (Frame.label f) List.mem_cons_self
    obtain ⟨d, v, s⟩ := f
    obtain rfl : d = .right := hside
    obtain ⟨hplug, hlen⟩ := ih (fun g hg => h g (List.mem_cons_of_mem _ hg)) (Frame.plug ⟨.right, v, s⟩ t)
    constructor
    · rw [plug_cons, hplug, before, Frame.inorder_plug]
      simp [Frame.before, Frame.after]
    · rw [before, List.length_append, hlen]
      simp [Frame.before, outside, inorder_length]
      omega

/-- Inserting a key equal to the two at the end of a path to the right rotates them: the
second one comes to the top, the last one below it on the right. -/
theorem insert_third (h : RightPath cmp k (fs.map Frame.label)) {z y new : Cell K} (hnew : new.key = k)
    (hz : cmp k z.key = 0) (hy : cmp k y.key = 0)
    (hbal : AvlBalanced (plug fs (node z (node y nil nil) nil))) :
    ∃ y' z', y'.key = y.key ∧ z'.key = z.key ∧
      (insertTree cmp new (plug fs (node z (node y nil nil) nil))).1 =
        plug fs (node y' (node new nil nil) (node z' nil nil)) := by
  obtain ⟨_, hend⟩ := (balanced_plug Cell.bal fs _).mp hbal
  have hzb : z.bal = -1 := hend.1
  have hyb : y.bal = 0 := hend.2.2.2.1.1
  have hpath : insertPath cmp new.key [] (plug fs (node z (node y nil nil) nil)) =
      ⟨.left, y.addRank 1, nil⟩ :: ⟨.left, z.addRank 1, nil⟩ :: fs := by
    rw [hnew, h.insertPath, List.append_nil, Avl.insertPath, if_pos (by omega), Avl.insertPath,
      if_pos (by omega), Avl.insertPath]
  have hcrit : critical (insertPath cmp new.key [] (plug fs (node z (node y nil nil) nil))) =
      some ([⟨.left, y.addRank 1, nil⟩], ⟨.left, z.addRank 1, nil⟩, fs) := by
    rw [hpath]
    simp [critical, hyb, hzb]
  rw [insertTree_eq hcrit]
  simp only [List.map_cons, List.map_nil, settle, plug_cons, plug_nil, Frame.plug, join_left, insertFix,
    Cell.addRank_bal, hzb, Side.sign_left, view]
  have hyb' : ((y.addRank 1).setBal (-1)).bal = -1 := Cell.bal_setBal_sign (y.addRank 1) .left
  rw [if_neg (by decide), if_neg (by decide), if_pos hyb']
  refine ⟨_, _, ?_, ?_, rfl⟩
  · rfl
  · rfl

end

theorem numNodes_map (f : α → β) (t : BinaryTree α) : (t.map f).numNodes = t.numNodes := by
  induction t with
  | nil => rfl
  | node a l r ihl ihr =>
    show (l.map f).numNodes + (r.map f).numNodes + 1 = _
    rw [ihl, ihr]
    rfl

theorem leftSizes_map (R : Nat → Prop) (f : α → β) (t : BinaryTree α) :
    LeftSizes (fun _ n => R n) (t.map f) ↔ LeftSizes (fun _ n => R n) t := by
  induction t with
  | nil => rfl
  | node a l r ihl ihr =>
    show R (l.map f).numNodes ∧ _ ∧ _ ↔ _
    rw [numNodes_map, ihl, ihr]
    rfl

theorem spine_leftSizes {m : Nat} (hm : m ≤ 35) : LeftSizes (fun _ n => n + 1 < 2 ^ 30) (spine m) := by
  induction m with
  | zero => simp [spine]
  | succ m ih =>
    have hside := side_numNodes (by omega : m < 35)
    exact ⟨by omega, leftSizes_lt (by omega), ih (by omega)⟩

theorem labels_end {v : BinaryTree (Cell K)} {a b : Option K} (h : labels v = node a (node b nil nil) nil) :
    ∃ z y, v = node z (node y nil nil) nil ∧ z.key = a ∧ y.key = b := by
  match v, h with
  | node z (node y nil nil) nil, h =>
    obtain ⟨hz, hy, _⟩ := node.inj h
    exact ⟨z, y, rfl, hz, (node.inj hy).1⟩

/-- A run of insertions to a tree in the shape of the spine. -/
theorem spine_built : ∃ (ks : List (Option Int)) (codes : List Int) (ob : AvlState Int)
    (fs : List (Frame (Cell Int))) (z y : Cell Int) (i : Int),
    callsNew compareInts (ks.map (Call.insert true)) = some (codes, ob) ∧ (∀ c ∈ codes, c = 0) ∧
      (∀ k ∈ ks, k ≠ none) ∧ Sound ob (plug fs (node z (node y nil nil) nil)) ∧
      ob.tree.compareFun = compareInts ∧ RightPath compareInts (some i) (fs.map Frame.label) ∧
      z.key = some i ∧ y.key = some i ∧
      LeftSizes (fun _ n => n + 1 < 2 ^ 30) (plug fs (node z (node y nil nil) nil)) ∧
      (plug fs (node z (node y nil nil) nil)).numNodes = (spine 35).numNodes := by
  obtain ⟨gs, k, _, hk, hplug, hpath⟩ := spine_end 0 35
  have hproper := spine_proper 35
  have hunit := number_unit 0 (spine 35)
  have hlevel : Level (number 0 (spine 35)) := by
    rw [← level_map (fun _ => ()), hunit, level_map]
    exact (spine_spec 35).2
  obtain ⟨ks, codes, ob, t, e, hcodes, hks, S, hc, hlabels⟩ :=
    built compareInts hlevel (number_search hproper)
  have hshape : t.map (fun _ => ()) = (spine 35).map fun _ => () := by
    rw [← hunit, ← hlabels]
    exact BinaryTree.comp_map Cell.key (fun _ => ()) t
  have hsizes : LeftSizes (fun _ n => n + 1 < 2 ^ 30) t := by
    rw [← leftSizes_map (fun n => n + 1 < 2 ^ 30) (fun _ => ()), hshape,
      leftSizes_map (fun n => n + 1 < 2 ^ 30)]
    exact spine_leftSizes (Nat.le_refl 35)
  have hcount : t.numNodes = (spine 35).numNodes := by
    rw [← numNodes_map (fun _ => ()), hshape, numNodes_map]
  rw [hplug] at hlabels
  obtain ⟨fs, v, rfl, rfl, hv⟩ := labels_eq_plug hlabels
  obtain ⟨z, y, rfl, hz, hy⟩ := labels_end hv
  rw [hk] at hz hy hpath
  refine ⟨ks, codes, ob, fs, z, y, _, e, hcodes, ?_, S, hc, hpath, hz, hy, hsizes, hcount⟩
  intro x hx
  obtain ⟨i, rfl, _⟩ := number_bounds hproper x (hks x hx)
  exact Option.some_ne_none i

/-- A run of insertions to a tree with exact ranks and more than `2 ^ 32` nodes, in which
three equal keys are at the end and the search finds the one in the middle. -/
theorem large_run : ∃ (ks : List (Option Int)) (codes : List Int) (ob : AvlState Int)
    (t : BinaryTree (Cell Int)) (k : Option Int) (n : Nat) (c : Cell Int),
    callsNew compareInts (ks.map (Call.insert true)) = some (codes, ob) ∧ (∀ c ∈ codes, c = 0) ∧
      (∀ k ∈ ks, k ≠ none) ∧ Holds ob 0 t ∧ LeftSizes RankExact t ∧
      locate compareInts k t = (n, some c) ∧ ob.tree.length.toNat < n ∧
      ∃ e, (keys t)[n + 1]? = some e ∧ compareInts k e = 0 := by
  obtain ⟨ks, codes, ob, fs, z, y, i, e, hcodes, hks, S, hc, hpath, hz, hy, hsizes, hcount⟩ := spine_built
  have hii : compareInts (some i) (some i) = 0 := by simp [compareInts]
  obtain ⟨ob', e', S', _⟩ := insert_grows e S hc (some i)
  obtain ⟨y', z', hy', hz', hthird⟩ :=
    insert_third hpath (rfl : (freshCell ob.heap.next (some i)).key = some i) (by rw [hz, hii])
      (by rw [hy, hii]) S.balanced
  rw [hthird] at S'
  have hall : ∀ c ∈ codes ++ [0], c = 0 := by
    intro c hmem
    rcases List.mem_append.mp hmem with hmem | hmem
    · exact hcodes c hmem
    · exact List.mem_singleton.mp hmem
  have hsmall : LeftSizes (fun _ n => n + 1 < 2 ^ 30)
      (plug fs (node y' (node (freshCell ob.heap.next (some i)) nil nil) (node z' nil nil))) := by
    obtain ⟨hfit, _⟩ := (leftSizes_plug ..).mp hsizes
    exact (leftSizes_plug ..).mpr ⟨hpath.sizesFit hfit, by simp⟩
  have hcalls : ks.map (Call.insert true) ++ [.insert true (some i)] =
      ((ks ++ [some i]).map Op.insert).map Op.call := by
    rw [List.map_map, List.map_append]
    rfl
  have hexact := exact_of_success _ (hcalls ▸ e') hall S'.holds hsmall
  have hnodes := numNodes_plug fs (node z (node y nil nil) nil)
  have hnodes' := numNodes_plug fs
    (node y' (node (freshCell ob.heap.next (some i)) nil nil) (node z' nil nil))
  obtain ⟨hinorder, houtside⟩ :=
    hpath.inorder (node y' (node (freshCell ob.heap.next (some i)) nil nil) (node z' nil nil))
  obtain ⟨hlow, hhigh⟩ := spine_numNodes
  rw [hcount] at hnodes
  simp only [numNodes] at hnodes hnodes'
  refine ⟨ks ++ [some i], codes ++ [0], ob', _, some i, outside fs + 1, y', ?_, hall, ?_, S'.holds, hexact,
    ?_, ?_, z'.key, ?_, by rw [hz', hz, hii]⟩
  · rw [List.map_append]
    exact e'
  · intro x hx
    rcases List.mem_append.mp hx with hx | hx
    · exact hks x hx
    · rw [List.mem_singleton.mp hx]
      exact Option.some_ne_none i
  · rw [hpath.locate, locate, hy', hy, hii]
    rfl
  · -- the length is behind by `2 ^ 32`
    rw [S'.length, BitVec.toNat_ofNat, hnodes']
    omega
  · rw [keys, hinorder, List.map_append, List.getElem?_append_right (by rw [List.length_map]; omega),
      List.length_map, houtside, show outside fs + 1 + 1 - outside fs = 2 by omega]
    rfl

/-! The span of a key. -/

/-- After every run with non-NULL keys, with exact ranks and fewer than `2 ^ 32` keys: the
span of a present key has exactly the positions of the keys equal to it. -/
theorem span_by_key {cmp : Option K → Option K → Int} (hcmp : TotalPreorder cmp)
    (calls : List (Call K)) (hcalls : ∀ key, Call.insert true key ∈ calls → key ≠ none) :
    ∃ codes ob t, callsNew cmp calls = some (codes, ob) ∧ Holds ob 0 t ∧
      (LeftSizes RankExact t → t.numNodes < 2 ^ 32 →
        ∀ k, (∃ e ∈ keys t, cmp k e = 0) → SpanOfKey cmp ob k) := by
  obtain ⟨codes, ob, t, e, H, hI⟩ := callsNew_indexed hcmp calls hcalls
  exact ⟨codes, ob, t, e, H, fun hexact hsize k hk => (hI hexact).spanOfKey hcmp hsize hk⟩

theorem span_by_key_ints : ∃ codes ob t,
    callsNew compareInts (insertInts.map Op.call) = some (codes, ob) ∧ Holds ob 0 t ∧
      SpanOfKey compareInts ob (some 2) := by
  obtain ⟨codes, ob, t, e, H, h⟩ :=
    span_by_key compareInts_totalPreorder (insertInts.map Op.call) insertInts_nonNull
  obtain ⟨hkeys, hexact⟩ := insertInts_run e H
  refine ⟨codes, ob, t, e, H, h hexact ?_ (some 2) ⟨some 2, by simp [hkeys], by decide⟩⟩
  rw [← keys_length, hkeys]
  decide

/-- With more than `2 ^ 32` keys the last of three equal keys may be left out. -/
theorem span_by_key_wraps : TotalPreorder compareInts ∧
    ∃ (ks : List (Option Int)) (codes : List Int) (ob : AvlState Int) (t : BinaryTree (Cell Int))
      (k : Option Int),
      callsNew compareInts (ks.map (Call.insert true)) = some (codes, ob) ∧ (∀ c ∈ codes, c = 0) ∧
        (∀ k ∈ ks, k ≠ none) ∧ Holds ob 0 t ∧ LeftSizes RankExact t ∧
        (∃ e ∈ keys t, compareInts k e = 0) ∧ ¬ SpanOfKey compareInts ob k := by
  obtain ⟨ks, codes, ob, t, k, n, c, e, hcodes, hks, H, hexact, hloc, hlen, x, hx, hkx⟩ := large_run
  have hcalls : ∀ key, Call.insert true key ∈ ks.map (Call.insert true) → key ≠ none := by
    intro key hkey
    obtain ⟨k', hk', heq⟩ := List.mem_map.mp hkey
    rw [← (Call.insert.inj heq).2]
    exact hks k' hk'
  obtain ⟨codes', ob', t', e', H', hI⟩ :=
    callsNew_indexed compareInts_totalPreorder (ks.map (Call.insert true)) hcalls
  obtain ⟨rfl, rfl⟩ : codes' = codes ∧ ob' = ob := by
    rw [e] at e'
    simpa using (Option.some.inj e').symm
  obtain rfl := H'.unique H
  refine ⟨compareInts_totalPreorder, ks, codes', ob', t', k, e, hcodes, hks, H, hexact,
    ⟨x, List.mem_of_getElem? hx, hkx⟩, ?_⟩
  exact (hI hexact).not_spanOfKey compareInts_totalPreorder hloc hlen hx hkx

end IcecastCommon.Avl
