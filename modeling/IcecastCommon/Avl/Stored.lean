import IcecastCommon.Avl.Traverse

/- A tree under a total preorder as the ordered list of its keys. Every operation of
   `avl.c` is a rule about that list, so that a user of the tree never looks at its nodes. -/
namespace IcecastCommon.Avl
open Library BinaryTree

variable {K : Type} {cmp : Option K → Option K → Int}

/-- The tree is sound and stores the keys `ks`, in order. -/
structure Stores (cmp : Option K → Option K → Int) (ob : AvlState K) (ks : List (Option K)) : Prop where
  sound : ∃ t, Sound ob t ∧ keys t = ks
  ordered : Ordered cmp ks
  compare : ob.tree.compareFun = cmp

theorem stores_new (cmp : Option K → Option K → Int) :
    ∃ ob, avlTreeNew true true cmp = some ob ∧ Stores cmp ob [] ∧ ob.freed = [] := by
  obtain ⟨ob, e, H, hlen, _, hcmp, hfreed⟩ := avlTreeNew_spec cmp
  refine ⟨ob, e, ⟨⟨nil, ⟨H, trivial, ?_⟩, rfl⟩, List.Pairwise.nil, hcmp⟩, hfreed⟩
  rw [hlen]
  rfl

namespace Stores
variable {ob : AvlState K} {ks : List (Option K)}

/-- `avl_insert` puts the key before the first one it is not after. -/
theorem insert (S : Stores cmp ob ks) (hcmp : TotalPreorder cmp) (k : Option K) :
    ∃ ob', avlInsert true ob k = some (0, ob') ∧ Stores cmp ob' (ks.orderedInsert (NotAfter cmp) k) ∧
      ob'.freed = ob.freed := by
  obtain ⟨⟨t, T, rfl⟩, hord, hc⟩ := S
  obtain ⟨ob', e, T', hcmp'⟩ := apply_spec T (.insert k)
  obtain ⟨ob'', e'', _, _, _, hfreed, _⟩ := avlInsert_spec T.holds T.balanced k
  obtain rfl : ob'' = ob' := congrArg Prod.snd (Option.some.inj (e''.symm.trans e))
  refine ⟨ob'', e'', ⟨⟨_, T', ?_⟩, hcmp.ordered_insert hord k, hcmp'.trans hc⟩, hfreed⟩
  simp only [stepTree, hc]
  exact insertTree_ordered hcmp _ hord

/-- `avl_delete` takes out one key comparing equal. -/
theorem delete_found (S : Stores cmp ob ks) (hcmp : TotalPreorder cmp) (freeKeyFun : Bool) {k : Option K}
    (hk : ∃ e ∈ ks, cmp k e = 0) :
    ∃ ob' xs e ys, avlDelete freeKeyFun ob k = some (0, ob') ∧ ks = xs ++ e :: ys ∧ cmp k e = 0 ∧
      Stores cmp ob' (xs ++ ys) ∧ ob'.freed = if freeKeyFun then ob.freed ++ [e] else ob.freed := by
  obtain ⟨⟨t, T, rfl⟩, hord, hc⟩ := S
  obtain ⟨D, hD⟩ := (deleteTree_isSome hcmp hord).mp hk
  obtain ⟨xs, ys, hkeys, hkeys', he⟩ := deleteTree_keys hD
  obtain ⟨ob', e', T', hcmp'⟩ := apply_spec T (.delete freeKeyFun k)
  obtain ⟨ob'', e'', _, _, hfreed⟩ := avlDelete_spec T.holds T.balanced freeKeyFun (by rw [hc]; exact hD)
  obtain rfl : ob'' = ob' := congrArg Prod.snd (Option.some.inj (e''.symm.trans e'))
  refine ⟨ob'', xs, D.key, ys, e'', hkeys, he, ⟨⟨_, T', ?_⟩, ?_, hcmp'.trans hc⟩, hfreed⟩
  · simp only [stepTree, hc, hD]
    exact hkeys'
  · rw [hkeys] at hord
    exact hord.sublist ((List.Sublist.refl xs).append (List.sublist_cons_self _ _))

/-- `avl_delete` fails when no key compares equal. -/
theorem delete_missing (S : Stores cmp ob ks) (hcmp : TotalPreorder cmp) (freeKeyFun : Bool) {k : Option K}
    (hk : ¬ ∃ e ∈ ks, cmp k e = 0) :
    ∃ ob', avlDelete freeKeyFun ob k = some (-1, ob') ∧ Stores cmp ob' ks ∧ ob'.freed = ob.freed := by
  obtain ⟨⟨t, T, rfl⟩, hord, hc⟩ := S
  have hD : deleteTree cmp k t = none := by
    rw [deleteTree_isSome hcmp hord, ← Option.ne_none_iff_exists'] at hk
    exact not_not.mp hk
  obtain ⟨ob', e', T', hcmp'⟩ := apply_spec T (.delete freeKeyFun k)
  obtain ⟨ob'', e'', _, _, hfreed⟩ := avlDelete_miss T.holds freeKeyFun (by rw [hc]; exact hD)
  obtain rfl : ob'' = ob' := congrArg Prod.snd (Option.some.inj (e''.symm.trans e'))
  refine ⟨ob'', e'', ⟨⟨_, T', ?_⟩, hord, hcmp'.trans hc⟩, hfreed⟩
  simp only [stepTree, hc, hD]
  exact missTree_keys hD

/-- `avl_get_by_key` finds a key comparing equal. -/
theorem get_found (S : Stores cmp ob ks) (hcmp : TotalPreorder cmp) {k : Option K}
    (hk : ∃ e ∈ ks, cmp k e = 0) : ∃ e ∈ ks, cmp k e = 0 ∧ avlGetByKey ob k = some (some e) := by
  obtain ⟨⟨t, T, rfl⟩, hord, hc⟩ := S
  obtain ⟨e, he, hke⟩ := hk
  cases hf : findKey cmp k t with
  | none => exact absurd hke (findKey_none hcmp hord hf e he)
  | some e' =>
    obtain ⟨he', hk'⟩ := findKey_some hf
    exact ⟨e', he', hk', by rw [avlGetByKey_spec T.holds, hc, hf]⟩

theorem get_missing (S : Stores cmp ob ks) {k : Option K} (hk : ¬ ∃ e ∈ ks, cmp k e = 0) :
    avlGetByKey ob k = some none := by
  obtain ⟨⟨t, T, rfl⟩, hord, hc⟩ := S
  rw [avlGetByKey_spec T.holds, hc]
  cases hf : findKey cmp k t with
  | none => rfl
  | some e' => exact absurd ⟨e', findKey_some hf⟩ hk

/-- The walk from `avl_get_first` along `avl_get_next` meets the keys in order. -/
theorem walk (S : Stores cmp ob ks) (hkeys : ∀ k ∈ ks, k ≠ none) :
    ∃ first visits, avlGetFirst ob = some first ∧
      follow (avlGetNext ob.heap) ob.heap ob.heap.next first = some visits ∧
      visits.map Prod.snd = ks := by
  obtain ⟨⟨t, T, rfl⟩, _, _⟩ := S
  have hnn := nonNull_of_keys hkeys
  refine ⟨_, visits t, avlGetFirst_spec T.holds hnn, ?_, ?_⟩
  · have hlen : (inorder t).length < ob.heap.next := by
      rw [inorder_length]
      exact T.holds.focus.size_lt
    exact follow_spec .right T.holds.focus hnn (List.nil_append _).symm hlen
  · rw [visits, List.map_map]
    rfl

/-- `avl_tree_free` frees the keys in order. -/
theorem free (S : Stores cmp ob ks) (hlen : 2 ^ 32 ∣ ks.length → ks = []) :
    ∃ h, avlTreeFree true ob = some (h, ob.freed ++ ks) := by
  obtain ⟨⟨t, T, rfl⟩, _, _⟩ := S
  have hzero : ob.tree.length = 0 ↔ t = nil := by
    rw [T.length, ofNat_eq_zero_iff, ← keys_length]
    refine ⟨fun hdvd => ?_, fun ht => ht ▸ Nat.dvd_zero _⟩
    have hnil := congrArg List.length (hlen hdvd)
    rw [keys_length] at hnil
    exact numNodes_eq_zero.mp hnil
  exact avlTreeFree_spec true T.holds hzero

end Stores

end IcecastCommon.Avl
