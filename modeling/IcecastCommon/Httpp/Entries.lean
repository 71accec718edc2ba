import IcecastCommon.Avl.Stored
import IcecastCommon.Httpp.Vars

/- A tree of variables is a map from names to lists of values. `Holds` is the invariant: no
   two entries have one name or one address, and each has the values that the map gives its
   name, at least one. Insertion, deletion and writing in place are rules about the map.
   `Frame` says that a call leaves the entries of other trees alone. -/
namespace IcecastCommon.Httpp
open Avl Library
open Encoding (Bytes nul cString)

/-! Names. -/

theorem strcmp_eq_zero {a b : Bytes} : strcmp a b = 0 ↔ a = b := by
  have hiff := Std.compare_eq_iff_eq (a := a) (b := b)
  rw [strcmp, ← hiff]
  generalize compare a b = o
  cases o with
  | lt => exact ⟨fun h => absurd h (by decide), fun h => absurd h (by decide)⟩
  | eq => exact ⟨fun _ => rfl, fun _ => rfl⟩
  | gt => exact ⟨fun h => absurd h (by decide), fun h => absurd h (by decide)⟩

theorem strcmp_neg {a b : Bytes} : strcmp a b < 0 ↔ compare a b = .lt := by
  rw [strcmp]
  cases compare a b <;> simp

theorem strcmp_pos {a b : Bytes} : 0 < strcmp a b ↔ compare a b = .gt := by
  rw [strcmp]
  cases compare a b <;> simp

theorem strcmp_nonpos {a b : Bytes} : strcmp a b ≤ 0 ↔ (compare a b).isLE = true := by
  rw [strcmp]
  cases compare a b <;> simp

theorem compareVars_totalPreorder : TotalPreorder compareVars := by
  constructor
  · intro a b
    rw [compareVars, compareVars, strcmp_neg, strcmp_pos, Std.OrientedOrd.eq_swap, Ordering.swap_eq_lt]
  · intro a b c
    simp only [compareVars, strcmp_nonpos]
    exact Std.TransCmp.isLE_trans

theorem compareVars_some (v w : VarPtr) : compareVars (some v) (some w) = 0 ↔ v.name = w.name :=
  strcmp_eq_zero

/-! The map. -/

/-- What a tree is for: the values under every name, none where there is no entry. -/
abbrev Entries := Bytes → List Bytes

/-- The tree has the entries `vs`, which give every name the values of the map. -/
structure Holds (mem : VarHeap) (tree : Tree) (vs : List VarPtr) (m : Entries) : Prop where
  stores : Stores compareVars tree (vs.map some)
  names : (vs.map VarPtr.name).Nodup
  addrs : (vs.map VarPtr.addr).Nodup
  bound : ∀ v ∈ vs, v.addr < mem.next
  values : ∀ v ∈ vs, mem.values v.addr = some (m v.name)
  filled : ∀ v ∈ vs, m v.name ≠ []
  only : ∀ name, m name ≠ [] → ∃ v ∈ vs, v.name = name

/-- A new tree is the empty map. -/
theorem holds_new : ∃ tree, avlTreeNew true true compareVars = some tree ∧
    ∀ mem, Holds mem tree [] fun _ => [] := by
  obtain ⟨tree, e, S, _⟩ := stores_new compareVars
  refine ⟨tree, e, fun mem => ⟨S, List.nodup_nil, List.nodup_nil, ?_, ?_, ?_, ?_⟩⟩
  · exact fun v hv => absurd hv List.not_mem_nil
  · exact fun v hv => absurd hv List.not_mem_nil
  · exact fun v hv => absurd hv List.not_mem_nil
  · exact fun name h => absurd rfl h

/-- The entries `vs` became `vs'`, and no other entry was touched. -/
structure Frame (mem mem' : VarHeap) (vs vs' : List VarPtr) : Prop where
  next : mem.next ≤ mem'.next
  values : ∀ a < mem.next, a ∉ vs.map VarPtr.addr → mem'.values a = mem.values a
  fresh : ∀ v ∈ vs', v ∈ vs ∨ mem.next ≤ v.addr

theorem Frame.refl (mem : VarHeap) (vs : List VarPtr) : Frame mem mem vs vs :=
  ⟨Nat.le_refl _, fun _ _ _ => rfl, fun _ hv => Or.inl hv⟩

theorem Frame.trans {mem mem₁ mem' : VarHeap} {vs vs₁ vs' : List VarPtr} (F : Frame mem mem₁ vs vs₁)
    (F' : Frame mem₁ mem' vs₁ vs') : Frame mem mem' vs vs' := by
  refine ⟨F.next.trans F'.next, ?_, ?_⟩
  · intro a ha hvs
    have hvs₁ : a ∉ vs₁.map VarPtr.addr := by
      intro hm
      obtain ⟨v, hv, rfl⟩ := List.mem_map.mp hm
      rcases F.fresh v hv with h | h
      · exact hvs (List.mem_map_of_mem h)
      · omega
    rw [F'.values a (Nat.lt_of_lt_of_le ha F.next) hvs₁, F.values a ha hvs]
  · intro v hv
    rcases F'.fresh v hv with h | h
    · exact F.fresh v h
    · exact Or.inr (F.next.trans h)

/-- Two trees share no entry. -/
def Apart (vs ws : List VarPtr) : Prop := ∀ v ∈ vs, ∀ w ∈ ws, v.addr ≠ w.addr

theorem Apart.symm {vs ws : List VarPtr} (h : Apart vs ws) : Apart ws vs :=
  fun w hw v hv => (h v hv w hw).symm

/-- Another tree is not touched. -/
theorem Holds.frame {mem mem' : VarHeap} {tree : Tree} {vs vs' ws : List VarPtr} {m : Entries}
    (H : Holds mem tree ws m) (F : Frame mem mem' vs vs') (hapart : Apart vs ws) :
    Holds mem' tree ws m ∧ Apart vs' ws := by
  refine ⟨⟨H.stores, H.names, H.addrs, ?_, ?_, H.filled, H.only⟩, ?_⟩
  · intro w hw
    exact Nat.lt_of_lt_of_le (H.bound w hw) F.next
  · intro w hw
    rw [F.values w.addr (H.bound w hw), H.values w hw]
    intro hm
    obtain ⟨v, hv, haddr⟩ := List.mem_map.mp hm
    exact hapart v hv w hw haddr
  · intro v hv w hw haddr
    rcases F.fresh v hv with h | h
    · exact hapart v h w hw haddr
    · have := H.bound w hw
      omega

/-- A new entry somewhere leaves the tree alone. -/
theorem Holds.alloc {mem : VarHeap} {tree : Tree} {vs : List VarPtr} {m : Entries} (H : Holds mem tree vs m)
    (values : List Bytes) :
    Holds ⟨Function.update mem.values mem.next (some values), mem.next + 1⟩ tree vs m := by
  refine ⟨H.stores, H.names, H.addrs, ?_, ?_, H.filled, H.only⟩
  · intro v hv
    exact Nat.lt_succ_of_lt (H.bound v hv)
  · intro v hv
    have hne : v.addr ≠ mem.next := Nat.ne_of_lt (H.bound v hv)
    show Function.update _ _ _ _ = _
    rw [Function.update_of_ne hne, H.values v hv]

/-! Lookup. -/

theorem exists_key {vs : List VarPtr} {name : Bytes} :
    (∃ e ∈ vs.map some, compareVars (searchKey name) e = 0) ↔ ∃ v ∈ vs, v.name = name := by
  constructor
  · intro h
    obtain ⟨e, he, hcmp⟩ := h
    obtain ⟨v, hv, rfl⟩ := List.mem_map.mp he
    exact ⟨v, hv, (strcmp_eq_zero.mp hcmp).symm⟩
  · intro h
    obtain ⟨v, hv, hname⟩ := h
    exact ⟨some v, List.mem_map_of_mem hv, strcmp_eq_zero.mpr hname.symm⟩

theorem Holds.exists_iff {mem : VarHeap} {tree : Tree} {vs : List VarPtr} {m : Entries}
    (H : Holds mem tree vs m) (name : Bytes) : (∃ v ∈ vs, v.name = name) ↔ m name ≠ [] := by
  constructor
  · intro h
    obtain ⟨v, hv, hname⟩ := h
    rw [← hname]
    exact H.filled v hv
  · exact H.only name

/-- `_httpp_get_param_var` finds the entry of the name. -/
theorem Holds.found {mem : VarHeap} {tree : Tree} {vs : List VarPtr} {m : Entries} (H : Holds mem tree vs m)
    {name : Bytes} (h : m (cString name) ≠ []) :
    ∃ v ∈ vs, v.name = cString name ∧ getParamVar tree name = some (some v) := by
  have hk := exists_key.mpr (H.only _ h)
  obtain ⟨e, he, hcmp, hget⟩ := H.stores.get_found compareVars_totalPreorder hk
  obtain ⟨v, hv, rfl⟩ := List.mem_map.mp he
  refine ⟨v, hv, (strcmp_eq_zero.mp hcmp).symm, ?_⟩
  rw [getParamVar, hget]
  rfl

theorem Holds.missing {mem : VarHeap} {tree : Tree} {vs : List VarPtr} {m : Entries} (H : Holds mem tree vs m)
    {name : Bytes} (h : m (cString name) = []) : getParamVar tree name = some none := by
  have hk : ¬ ∃ e ∈ vs.map some, compareVars (searchKey (cString name)) e = 0 := by
    rw [exists_key, H.exists_iff]
    exact not_not.mpr h
  rw [getParamVar, H.stores.get_missing hk]
  rfl

/-- The first value of a name, NULL without an entry. -/
theorem Holds.getParam {mem : VarHeap} {tree : Tree} {vs : List VarPtr} {m : Entries} (H : Holds mem tree vs m)
    (name : Bytes) : getParam mem tree name = some (m (cString name)).head? := by
  rw [Httpp.getParam]
  by_cases h : m (cString name) = []
  · rw [H.missing h, h]
    rfl
  · obtain ⟨v, hv, hname, hget⟩ := H.found h
    rw [hget]
    simp only [Option.bind_eq_bind, Option.bind_some, firstValue, H.values v hv, hname]

/-! Changes. -/

/-- An entry for a name without one. -/
theorem Holds.insert {mem : VarHeap} {tree : Tree} {vs : List VarPtr} {m : Entries} (H : Holds mem tree vs m)
    {var : VarPtr} {values : List Bytes} (hvalues : mem.values var.addr = some values) (hne : values ≠ [])
    (hbound : var.addr < mem.next) (hfresh : ∀ v ∈ vs, v.addr ≠ var.addr) (hname : m var.name = []) :
    ∃ tree' vs', insertVar mem tree var = some (mem, tree') ∧
      Holds mem tree' vs' (Function.update m var.name values) ∧ ∀ v ∈ vs', v = var ∨ v ∈ vs := by
  obtain ⟨tree', e, S', _⟩ := H.stores.insert compareVars_totalPreorder (some var)
  have hperm := List.perm_orderedInsert (NotAfter compareVars) (some var) (vs.map some)
  rw [List.orderedInsert_eq_take_drop] at S' hperm
  obtain ⟨xs, ys, hvs, hxs, hys⟩ := List.map_eq_append_iff.mp
    (List.takeWhile_append_dropWhile (p := fun b => decide ¬ NotAfter compareVars (some var) b) (l := vs.map some)).symm
  rw [← hxs, ← hys, ← List.map_cons, ← List.map_append] at S'
  have hunused : ∀ v ∈ vs, v.name ≠ var.name := by
    intro v hv h
    exact H.filled v hv (h ▸ hname)
  subst hvs
  have hmem : ∀ v, v ∈ xs ++ var :: ys ↔ v = var ∨ v ∈ xs ++ ys := by
    intro v
    simp only [List.mem_append, List.mem_cons]
    tauto
  refine ⟨tree', xs ++ var :: ys, by rw [insertVar, e]; rfl, ⟨S', ?_, ?_, ?_, ?_, ?_, ?_⟩, ?_⟩
  · rw [List.map_append, List.map_cons, List.nodup_middle, List.nodup_cons, ← List.map_append]
    refine ⟨fun hm => ?_, H.names⟩
    obtain ⟨v, hv, h⟩ := List.mem_map.mp hm
    exact hunused v hv h
  · rw [List.map_append, List.map_cons, List.nodup_middle, List.nodup_cons, ← List.map_append]
    refine ⟨fun hm => ?_, H.addrs⟩
    obtain ⟨v, hv, h⟩ := List.mem_map.mp hm
    exact hfresh v hv h
  · intro v hv
    rcases (hmem v).mp hv with h | h
    · rw [h]
      exact hbound
    · exact H.bound v h
  · intro v hv
    rcases (hmem v).mp hv with h | h
    · rw [h, Function.update_self, hvalues]
    · rw [Function.update_of_ne (hunused v h), H.values v h]
  · intro v hv
    rcases (hmem v).mp hv with h | h
    · rw [h, Function.update_self]
      exact hne
    · rw [Function.update_of_ne (hunused v h)]
      exact H.filled v h
  · intro name hnm
    by_cases h : name = var.name
    · exact ⟨var, (hmem var).mpr (Or.inl rfl), h.symm⟩
    · rw [Function.update_of_ne h] at hnm
      obtain ⟨v, hv, hv'⟩ := H.only name hnm
      exact ⟨v, (hmem v).mpr (Or.inr hv), hv'⟩
  · intro v hv
    exact (hmem v).mp hv

theorem nodup_drop_middle {A B : Type} {f : A → B} {us zs : List A} {v : A}
    (h : ((us ++ v :: zs).map f).Nodup) :
    ((us ++ zs).map f).Nodup ∧ ∀ w ∈ us ++ zs, f w ≠ f v := by
  rw [List.map_append, List.map_cons, List.nodup_middle, List.nodup_cons, ← List.map_append] at h
  exact ⟨h.2, fun w hw e => h.1 (e ▸ List.mem_map_of_mem hw)⟩

/-- The entry of a name is deleted and freed; a name without one is left alone. -/
theorem Holds.delete {mem : VarHeap} {tree : Tree} {vs : List VarPtr} {m : Entries} (H : Holds mem tree vs m)
    (key : VarPtr) :
    ∃ mem' tree' vs', deleteVar mem tree (some key) = some (mem', tree') ∧
      Holds mem' tree' vs' (Function.update m key.name []) ∧ mem'.next = mem.next ∧
      (∀ a, a ∉ vs.map VarPtr.addr → mem'.values a = mem.values a) ∧ ∀ v ∈ vs', v ∈ vs := by
  by_cases hk : ∃ e ∈ vs.map some, compareVars (some key) e = 0
  · obtain ⟨tree', xs, e, ys, hdel, hvs, hcmp, S', hfreed⟩ :=
      H.stores.delete_found compareVars_totalPreorder true hk
    obtain ⟨us, ws, hsplit, rfl, hws⟩ := List.map_eq_append_iff.mp hvs
    obtain ⟨v, zs, rfl, rfl, rfl⟩ := List.map_eq_cons_iff.mp hws
    subst hsplit
    have hname : key.name = v.name := (compareVars_some key v).mp hcmp
    have hv : v ∈ us ++ v :: zs := List.mem_append_right us List.mem_cons_self
    have hsub : ∀ w ∈ us ++ zs, w ∈ us ++ v :: zs := by
      intro w hw
      rcases List.mem_append.mp hw with h | h
      · exact List.mem_append_left _ h
      · exact List.mem_append_right _ (List.mem_cons_of_mem v h)
    obtain ⟨hnames, hother⟩ := nodup_drop_middle H.names
    obtain ⟨haddrs, hapart⟩ := nodup_drop_middle H.addrs
    rw [← List.map_append] at S'
    refine ⟨⟨Function.update mem.values v.addr none, mem.next⟩, tree', us ++ zs, ?_,
      ⟨S', hnames, haddrs, ?_, ?_, ?_, ?_⟩, rfl, ?_, hsub⟩
    · have hdrop : tree'.freed.drop tree.freed.length = [some v] := by
        rw [hfreed, if_pos rfl, List.drop_left]
      have hfree : mem.free v = some ⟨Function.update mem.values v.addr none, mem.next⟩ := by
        rw [VarHeap.free, H.values v hv]
        rfl
      rw [deleteVar, hdel]
      simp only [Option.bind_eq_bind, Option.bind_some, hdrop, List.foldlM_cons, hfree, List.foldlM_nil]
      rfl
    · exact fun w hw => H.bound w (hsub w hw)
    · intro w hw
      have hne : w.name ≠ key.name := by
        rw [hname]
        exact hother w hw
      show Function.update _ _ _ _ = _
      rw [Function.update_of_ne (hapart w hw), Function.update_of_ne hne, H.values w (hsub w hw)]
    · intro w hw
      have hne : w.name ≠ key.name := by
        rw [hname]
        exact hother w hw
      rw [Function.update_of_ne hne]
      exact H.filled w (hsub w hw)
    · intro name hnm
      by_cases h : name = key.name
      · rw [h, Function.update_self] at hnm
        exact absurd rfl hnm
      · rw [Function.update_of_ne h] at hnm
        obtain ⟨w, hw, hw'⟩ := H.only name hnm
        refine ⟨w, ?_, hw'⟩
        rcases List.mem_append.mp hw with hm | hm
        · exact List.mem_append_left _ hm
        · rcases List.mem_cons.mp hm with hm | hm
          · rw [hm, ← hname] at hw'
            exact absurd hw'.symm h
          · exact List.mem_append_right _ hm
    · intro a ha
      have hne : a ≠ v.addr := by
        intro h
        exact ha (h ▸ List.mem_map_of_mem hv)
      exact Function.update_of_ne hne _ _
  · obtain ⟨tree', hdel, S', hfreed⟩ := H.stores.delete_missing compareVars_totalPreorder true hk
    have hnone : m key.name = [] := by
      by_contra h
      exact hk (exists_key.mpr (H.only _ h))
    refine ⟨mem, tree', vs, ?_, ?_, rfl, fun _ _ => rfl, fun _ hv => hv⟩
    · rw [deleteVar, hdel]
      simp only [Option.bind_eq_bind, Option.bind_some, hfreed, List.drop_length, List.foldlM_nil]
      rfl
    · rw [← hnone, Function.update_eq_self]
      exact ⟨S', H.names, H.addrs, H.bound, H.values, H.filled, H.only⟩

/-- A value is written behind the others of an entry. -/
theorem Holds.append {mem : VarHeap} {tree : Tree} {vs : List VarPtr} {m : Entries} (H : Holds mem tree vs m)
    {var : VarPtr} (hvar : var ∈ vs) (value : Bytes) :
    ∃ mem', mem.append var value = some mem' ∧
      Holds mem' tree vs (Function.update m var.name (m var.name ++ [value])) ∧ Frame mem mem' vs vs := by
  refine ⟨⟨Function.update mem.values var.addr (some (m var.name ++ [value])), mem.next⟩, ?_,
    ⟨H.stores, H.names, H.addrs, H.bound, ?_, ?_, ?_⟩, Nat.le_refl _, ?_, fun _ hv => Or.inl hv⟩
  · rw [VarHeap.append, H.values var hvar]
    rfl
  · intro v hv
    by_cases h : v = var
    · rw [h, Function.update_self]
      exact Function.update_self ..
    · have haddr : v.addr ≠ var.addr := fun e => h (List.inj_on_of_nodup_map H.addrs hv hvar e)
      have hname : v.name ≠ var.name := fun e => h (List.inj_on_of_nodup_map H.names hv hvar e)
      show Function.update _ _ _ _ = _
      rw [Function.update_of_ne haddr, Function.update_of_ne hname, H.values v hv]
  · intro v hv
    by_cases h : v.name = var.name
    · rw [h, Function.update_self]
      exact List.append_ne_nil_of_right_ne_nil _ (List.cons_ne_nil _ _)
    · rw [Function.update_of_ne h]
      exact H.filled v hv
  · intro name hnm
    by_cases h : name = var.name
    · exact ⟨var, hvar, h.symm⟩
    · rw [Function.update_of_ne h] at hnm
      exact H.only name hnm
  · intro a _ ha
    have hne : a ≠ var.addr := by
      intro h
      exact ha (h ▸ List.mem_map_of_mem hvar)
    exact Function.update_of_ne hne _ _

/-! The functions that set. -/

section

variable {mem : VarHeap} {tree : Tree} {vs : List VarPtr} {m : Entries}

/-- A new entry with its first value. -/
theorem alloc_append (mem : VarHeap) (name value : Bytes) :
    (mem.alloc name []).2.append (mem.alloc name []).1 value = some (mem.alloc name [value]).2 := by
  simp only [VarHeap.alloc, VarHeap.append, Function.update_self, Option.bind_eq_bind, Option.bind_some,
    List.nil_append, Function.update_idem]

theorem alloc_frame (mem : VarHeap) (vs vs' : List VarPtr) (name : Bytes) (values : List Bytes)
    (h : ∀ v ∈ vs', v = (mem.alloc name values).1 ∨ v ∈ vs) :
    Frame mem (mem.alloc name values).2 vs vs' := by
  refine ⟨Nat.le_succ _, ?_, ?_⟩
  · intro a ha _
    exact Function.update_of_ne (Nat.ne_of_lt ha) _ _
  · intro v hv
    rcases h v hv with h | h
    · right
      rw [h]
      exact Nat.le_refl _
    · exact Or.inl h

/-- A new entry is inserted for a name without one. -/
theorem Holds.insert_new (H : Holds mem tree vs m) {name : Bytes} (value : Bytes) (hname : m name = []) :
    ∃ tree' vs', insertVar (mem.alloc name [value]).2 tree (mem.alloc name [value]).1 =
        some ((mem.alloc name [value]).2, tree') ∧
      Holds (mem.alloc name [value]).2 tree' vs' (Function.update m name [value]) ∧
      Frame mem (mem.alloc name [value]).2 vs vs' := by
  have hvalues : (mem.alloc name [value]).2.values (mem.alloc name [value]).1.addr = some [value] :=
    Function.update_self ..
  have hfresh : ∀ v ∈ vs, v.addr ≠ (mem.alloc name [value]).1.addr :=
    fun v hv => Nat.ne_of_lt (H.bound v hv)
  obtain ⟨tree', vs', e, H', hvs'⟩ := (H.alloc [value]).insert hvalues (List.cons_ne_nil _ _)
    (Nat.lt_succ_self _) hfresh hname
  exact ⟨tree', vs', e, H', alloc_frame mem vs vs' name [value] hvs'⟩

/-- The entry of a name is exchanged for a new one. -/
theorem Holds.exchange (H : Holds mem tree vs m) {name : Bytes} (value : Bytes) {key : VarPtr}
    (hkey : key.name = name) :
    ∃ mem' tree' vs', ((deleteVar (mem.alloc name [value]).2 tree (some key)).bind fun r =>
        insertVar r.1 r.2 (mem.alloc name [value]).1) = some (mem', tree') ∧
      Holds mem' tree' vs' (Function.update m name [value]) ∧ Frame mem mem' vs vs' := by
  obtain ⟨mem₁, tree₁, vs₁, e₁, H₁, hnext, hvalues₁, hvs₁⟩ := (H.alloc [value]).delete key
  rw [hkey] at H₁
  have hnew : mem.next ∉ vs.map VarPtr.addr := by
    intro hm
    obtain ⟨v, hv, h⟩ := List.mem_map.mp hm
    have := H.bound v hv
    omega
  have hvalues : mem₁.values (mem.alloc name [value]).1.addr = some [value] :=
    (hvalues₁ mem.next hnew).trans (Function.update_self ..)
  have hbound : (mem.alloc name [value]).1.addr < mem₁.next := by
    rw [hnext]
    exact Nat.lt_succ_self _
  have hfresh : ∀ v ∈ vs₁, v.addr ≠ (mem.alloc name [value]).1.addr :=
    fun v hv => Nat.ne_of_lt (H.bound v (hvs₁ v hv))
  obtain ⟨tree', vs', e', H', hvs'⟩ := H₁.insert hvalues (List.cons_ne_nil _ _) hbound hfresh
    (Function.update_self ..)
  refine ⟨mem₁, tree', vs', ?_, ?_, ?_⟩
  · show (deleteVar ⟨Function.update mem.values mem.next (some [value]), mem.next + 1⟩ tree (some key)).bind _ = _
    rw [e₁]
    exact e'
  · have hmap : Function.update (Function.update m name []) name [value] = Function.update m name [value] :=
      Function.update_idem ..
    exact hmap ▸ H'
  · refine ⟨?_, ?_, ?_⟩
    · rw [hnext]
      exact Nat.le_succ _
    · intro a ha hvs
      rw [hvalues₁ a hvs]
      exact Function.update_of_ne (Nat.ne_of_lt ha) _ _
    · intro v hv
      rcases hvs' v hv with h | h
      · right
        rw [h]
        exact Nat.le_refl _
      · exact Or.inl (hvs₁ v h)

/-- `_httpp_set_param_nocopy` replaces the values of the name or adds one to them. -/
theorem setParamNocopy_spec (H : Holds mem tree vs m) (name value : Bytes) (replace : Bool) :
    ∃ mem' tree' vs', setParamNocopy mem tree name (some value) replace = some (mem', tree') ∧
      Holds mem' tree' vs' (Function.update m (cString name)
        ((if replace then [] else m (cString name)) ++ [cString value])) ∧ Frame mem mem' vs vs' := by
  by_cases hname : m (cString name) = []
  · -- no entry
    obtain ⟨tree', vs', e, H', F⟩ := H.insert_new (cString value) hname
    refine ⟨_, tree', vs', ?_, ?_, F⟩
    · cases replace <;>
        simp only [setParamNocopy, H.missing hname, Option.bind_eq_bind, Option.bind_some, alloc_append] <;>
        exact e
    · rw [hname]
      cases replace <;> exact H'
  · obtain ⟨var, hvar, hvname, hfound⟩ := H.found hname
    cases replace with
    | true =>
      obtain ⟨mem', tree', vs', e, H', F⟩ := H.exchange (cString value) hvname
      refine ⟨mem', tree', vs', ?_, H', F⟩
      rw [← e]
      simp only [setParamNocopy, hfound, Option.bind_eq_bind, Option.bind_some, alloc_append]
      rfl
    | false =>
      obtain ⟨mem', e, H', F⟩ := H.append hvar (cString value)
      rw [hvname] at H'
      refine ⟨mem', tree, vs, ?_, H', F⟩
      simp only [setParamNocopy, hfound, Option.bind_eq_bind, Option.bind_some, e]

end

/-- `httpp_setvar` gives the name that one value. -/
theorem httppSetvar_spec {p : Parser} {vs : List VarPtr} {m : Entries} (H : Holds p.mem p.vars vs m)
    (name value : Bytes) :
    ∃ mem' tree' vs', httppSetvar p (some name) (some value) =
        some { p with mem := mem', vars := tree' } ∧
      Holds mem' tree' vs' (Function.update m (cString name) [cString value]) ∧ Frame p.mem mem' vs vs' := by
  have hget := (H.alloc [cString value]).getParam name
  by_cases hname : m (cString name) = []
  · obtain ⟨tree', vs', e, H', F⟩ := H.insert_new (cString value) hname
    refine ⟨_, tree', vs', ?_, H', F⟩
    rw [hname] at hget
    rw [VarHeap.alloc] at e
    simp only [httppSetvar, VarHeap.alloc, Option.bind_eq_bind, Option.bind_some, hget, List.head?_nil, e]
  · obtain ⟨x, xs, hx⟩ := List.exists_cons_of_ne_nil hname
    have hkey : (p.mem.alloc (cString name) [cString value]).1.name = cString name := rfl
    obtain ⟨mem', tree', vs', e, H', F⟩ := H.exchange (cString value) hkey
    refine ⟨mem', tree', vs', ?_, H', F⟩
    rw [hx] at hget
    obtain ⟨r, hr, hr'⟩ := Option.bind_eq_some_iff.mp e
    have hdelete : deleteVar ⟨Function.update p.mem.values p.mem.next (some [cString value]), p.mem.next + 1⟩
        p.vars (some ⟨cString name, p.mem.next⟩) = some r := hr
    have hinsert : insertVar r.1 r.2 ⟨cString name, p.mem.next⟩ = some (mem', tree') := hr'
    simp only [httppSetvar, VarHeap.alloc, Option.bind_eq_bind, Option.bind_some, hget, List.head?_cons, hdelete,
      hinsert]

theorem httppDeletevar_spec {p : Parser} {vs : List VarPtr} {m : Entries} (H : Holds p.mem p.vars vs m)
    (name : Bytes) :
    ∃ mem' tree' vs', httppDeletevar p (some name) = some { p with mem := mem', vars := tree' } ∧
      Holds mem' tree' vs' (Function.update m (cString name) []) ∧ Frame p.mem mem' vs vs' := by
  obtain ⟨mem', tree', vs', e, H', hnext, hvalues, hvs'⟩ := H.delete ⟨cString name, 0⟩
  refine ⟨mem', tree', vs', ?_, H', Nat.le_of_eq hnext.symm, fun a _ ha => hvalues a ha,
    fun v hv => Or.inl (hvs' v hv)⟩
  rw [httppDeletevar, searchKey, e]
  rfl

end IcecastCommon.Httpp
