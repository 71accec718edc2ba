import IcecastCommon.Thread.Handover

/- What the thread tree is for: it has the record of every thread that has started and has not
   been taken out, once. The search in it finds the record of the thread that searches, since no
   two of these threads have one identifier. -/
namespace IcecastCommon.Thread
open Avl Library

/-- The record of a thread that has put itself in the tree. -/
def Registered (s : State) (p : ThreadPtr) : Prop :=
  ∃ t os r, s.threads t = some os ∧ ¬ os.pc.Starting ∧ os.thread = p.block ∧ s.records p.block = some r ∧
    r.threadId = p.threadId

/-- The tree has the registered records. -/
structure Registry (s : State) (tree : Tree) (ps : List ThreadPtr) : Prop where
  root : s.threadtree = some tree
  stores : Stores compareThreads tree (ps.map some)
  nodup : ps.Nodup
  listed : ∀ p, p ∈ ps ↔ Registered s p

theorem compareThreads_totalPreorder : TotalPreorder compareThreads := by
  constructor
  · intro a b
    unfold compareThreads
    grind
  · intro a b c
    unfold compareThreads
    grind

theorem compareThreads_some (p q : ThreadPtr) :
    compareThreads (some p) (some q) = 0 ↔ p.threadId = q.threadId := by
  simp only [compareThreads, Option.map_some, Option.getD_some]
  grind

theorem Registered.numbered {s : State} {p : ThreadPtr} (h : Registered s p) : Numbered s p.block := by
  obtain ⟨t, os, r, ht, _, hthread, _⟩ := h
  exact ⟨t, os, ht, Or.inl hthread⟩

namespace Registry
variable {s s' : State} {tree : Tree} {ps : List ThreadPtr}

/-- A step that registers nobody and takes nobody out. -/
theorem frame (G : Registry s tree ps) (htree : s'.threadtree = s.threadtree)
    (h : ∀ p, Registered s' p ↔ Registered s p) : Registry s' tree ps :=
  ⟨htree.trans G.root, G.stores, G.nodup, fun p => (G.listed p).trans (h p).symm⟩

/-- Two registered records with one id are one. -/
theorem eq_of_id (G : Registry s tree ps) (I : Ids s) {p q : ThreadPtr} (hp : p ∈ ps) (hq : q ∈ ps)
    (h : p.threadId = q.threadId) : p = q := by
  have hp' := (G.listed p).mp hp
  have hq' := (G.listed q).mp hq
  obtain ⟨_, _, r, _, _, _, hr, hid⟩ := hp'
  obtain ⟨_, _, r', _, _, _, hr', hid'⟩ := hq'
  have hblock := I.distinct p.block r q.block r' ((G.listed p).mp hp).numbered ((G.listed q).mp hq).numbered hr hr'
    (by rw [hid, hid', h])
  obtain ⟨pa, pi⟩ := p
  obtain ⟨qa, qi⟩ := q
  cases hblock
  cases h
  rfl

/-- A thread puts its record in. -/
theorem insert (G : Registry s tree ps) {p : ThreadPtr} (hp : ¬ Registered s p) :
    ∃ r tree' ps', avlInsert true tree (some p) = some (r, tree') ∧
      ∀ s', s'.threadtree = some tree' → (∀ q, Registered s' q ↔ q = p ∨ Registered s q) →
        Registry s' tree' ps' := by
  obtain ⟨tree', e, S, _⟩ := G.stores.insert compareThreads_totalPreorder (some p)
  rw [List.orderedInsert_eq_take_drop] at S
  obtain ⟨xs, ys, hps, hxs, hys⟩ := List.map_eq_append_iff.mp
    (List.takeWhile_append_dropWhile (p := fun b => decide ¬ NotAfter compareThreads (some p) b)
      (l := ps.map some)).symm
  rw [← hxs, ← hys, ← List.map_cons, ← List.map_append] at S
  have hperm : (xs ++ p :: ys).Perm (p :: ps) := by
    rw [hps]
    exact List.perm_middle
  refine ⟨0, tree', xs ++ p :: ys, e, fun s' htree hreg => ⟨htree, S, ?_, fun q => ?_⟩⟩
  · rw [hperm.nodup_iff, List.nodup_cons]
    exact ⟨fun h => hp ((G.listed p).mp h), G.nodup⟩
  · rw [hperm.mem_iff, List.mem_cons, hreg, G.listed q]

/-- A record is taken out. -/
theorem delete (G : Registry s tree ps) (I : Ids s) {p : ThreadPtr} (hp : Registered s p) :
    ∃ tree' ps', avlDelete true tree (some p) = some (0, tree') ∧
      tree'.freed = tree.freed ++ [some p] ∧
      ∀ s', s'.threadtree = some tree' → (∀ q, Registered s' q ↔ q ≠ p ∧ Registered s q) →
        Registry s' tree' ps' := by
  have hmem := (G.listed p).mpr hp
  obtain ⟨tree', xs, e, ys, he, hsplit, hcmp, S, hfreed⟩ := G.stores.delete_found compareThreads_totalPreorder
    true ⟨some p, List.mem_map_of_mem hmem, (compareThreads_some p p).mpr rfl⟩
  obtain ⟨us, ws, hps, rfl, hws⟩ := List.map_eq_append_iff.mp hsplit
  obtain ⟨q, zs, rfl, rfl, rfl⟩ := List.map_eq_cons_iff.mp hws
  have hq : q ∈ ps := by
    rw [hps]
    exact List.mem_append_right us List.mem_cons_self
  obtain rfl : p = q := G.eq_of_id I hmem hq ((compareThreads_some p q).mp hcmp)
  have hnodup := G.nodup
  rw [hps, List.nodup_middle, List.nodup_cons] at hnodup
  rw [← List.map_append] at S
  refine ⟨tree', us ++ zs, he, by rw [hfreed]; rfl, fun s' htree hreg => ⟨htree, S, hnodup.2, fun q => ?_⟩⟩
  have hold : q ∈ ps ↔ q = p ∨ q ∈ us ++ zs := by
    rw [hps, List.mem_append, List.mem_cons, List.mem_append]
    tauto
  rw [hreg, ← G.listed q, hold]
  refine ⟨fun h => ⟨fun hqp => hnodup.1 (hqp ▸ h), Or.inr h⟩, fun h => h.2.resolve_left h.1⟩

end Registry

/-! The search. -/

/-- The first record with the identifier. -/
def firstMatch (records : Block → Option ThreadType) (sysThread : Pthread) (p : ThreadPtr) : Bool :=
  match records p.block with
  | some r => sysThread = r.sysThread
  | none => false

/-- The loop finds the first record with the identifier among the keys that it walks over. -/
theorem selfLoop_follow {records : Block → Option ThreadType} (sysThread : Pthread) {h : Heap ThreadPtr}
    {fuel : Nat} {node : Ptr} {visits : List (Addr × Option ThreadPtr)} {ps : List ThreadPtr}
    (hfollow : follow (avlGetNext h) h fuel node = some visits) (hkeys : visits.map Prod.snd = ps.map some)
    (hrecords : ∀ p ∈ ps, records p.block ≠ none) :
    selfLoop records sysThread h fuel node = some ((ps.find? (firstMatch records sysThread)).map ThreadPtr.block) := by
  induction fuel generalizing node visits ps with
  | zero => exact absurd hfollow (by simp [follow])
  | succ fuel ih =>
    cases node with
    | none =>
      cases hfollow
      obtain rfl : ps = [] := List.map_eq_nil_iff.mp hkeys.symm
      rfl
    | some a =>
      simp only [follow, Option.bind_eq_bind, Option.bind_eq_some_iff] at hfollow
      obtain ⟨n, hn, node, hnext, rest, hrest, hvisits⟩ := hfollow
      cases hvisits
      cases ps with
      | nil => exact absurd hkeys (by simp)
      | cons p ps =>
        simp only [List.map_cons, List.cons.injEq] at hkeys
        obtain ⟨hkey, hkeys⟩ := hkeys
        obtain ⟨r, hr⟩ := Option.ne_none_iff_exists'.mp (hrecords p List.mem_cons_self)
        have hrec := ih hrest hkeys fun q hq => hrecords q (List.mem_cons_of_mem p hq)
        rw [selfLoop, hn]
        simp only [Option.bind_eq_bind, Option.bind_some, hkey, hr, hnext]
        by_cases hsys : sysThread = r.sysThread
        · rw [if_pos hsys, List.find?_cons_of_pos (by simp [firstMatch, hr, hsys])]
          rfl
        · rw [if_neg hsys, List.find?_cons_of_neg (by simp [firstMatch, hr, hsys]), hrec]

/-- `thread_self` finds the record of the thread that calls it. -/
theorem Registry.scan {s : State} {tree : Tree} {ps : List ThreadPtr} (G : Registry s tree ps) (R : Roles s)
    {t : Nat} {os : Os} (ht : s.threads t = some os) (hstart : ¬ os.pc.Starting) (hgone : ¬ os.pc.Gone)
    (after : After) (answer : Answer) : body s os answer (.scan after) = some (some os.thread, s) := by
  obtain ⟨first, visits, hfirst, hfollow, hkeys⟩ := G.stores.walk (by
    intro k hk
    obtain ⟨p, _, rfl⟩ := List.mem_map.mp hk
    exact Option.some_ne_none p)
  have hrecords : ∀ p ∈ ps, s.records p.block ≠ none := by
    intro p hp
    obtain ⟨_, _, r, _, _, _, hr, _⟩ := (G.listed p).mp hp
    rw [hr]
    exact Option.some_ne_none r
  have hloop := selfLoop_follow os.sys hfollow hkeys hrecords
  obtain ⟨r, hr⟩ := Option.ne_none_iff_exists'.mp (R.owned.running t os ht hgone)
  have hmine : ⟨os.thread, r.threadId⟩ ∈ ps := (G.listed _).mpr ⟨t, os, r, ht, hstart, rfl, hr, rfl⟩
  have hmatch : firstMatch s.records os.sys ⟨os.thread, r.threadId⟩ = true := by
    simp [firstMatch, hr, (R.owned.right t os r ht hr).1]
  -- No other registered record has the identifier.
  have honly : ∀ q ∈ ps, firstMatch s.records os.sys q = true → q.block = os.thread := by
    intro q hq hm
    obtain ⟨u, os', r', hu, _, hthread, hr', _⟩ := (G.listed q).mp hq
    simp only [firstMatch, hr', decide_eq_true_eq] at hm
    rw [← hthread] at hr' ⊢
    have hsys := (R.owned.right u os' r' hu hr').1
    have hsame := R.identifiers t os u os' ht hu (Or.inr (by rw [hr]; exact Option.some_ne_none r))
      (Or.inr (by rw [hr']; exact Option.some_ne_none r')) (hm.trans hsys)
    subst hsame
    rw [Option.some.inj (ht.symm.trans hu)]
  obtain ⟨q, hq⟩ := Option.isSome_iff_exists.mp (List.find?_isSome.mpr ⟨_, hmine, hmatch⟩)
  rw [body, G.root]
  simp only [Option.bind_eq_bind, hfirst, Option.bind_some, hloop, hq, Option.map_some]
  rw [honly q (List.mem_of_find?_eq_some hq) (List.find?_some hq)]

end IcecastCommon.Thread
