import IcecastCommon.Httpp.Maps

/- What the calls on one parser leave in its trees. The map of a tree is given by the calls
   so far, latest first: the value of the last `httpp_setvar`, and for a parameter the last
   value set with what was parsed since. -/
namespace IcecastCommon.Httpp
open Avl Library
open Encoding (Bytes nul cString)

/-- The entries of a tree, each with its values. -/
def readEntries (mem : VarHeap) (tree : Tree) : Option (List (Bytes × List Bytes)) := do
  let first ← avlGetFirst tree
  let visits ← follow (avlGetNext tree.heap) tree.heap tree.heap.next first
  visits.mapM fun visit => do
    let var ← visit.2
    let values ← mem.values var.addr
    some (var.name, values)

section
variable {mem mem' : VarHeap} {tree tree' : Tree} {vs vs' : List VarPtr} {m : Entries}

/-- The names of the entries, in order. -/
theorem Holds.sorted (H : Holds mem tree vs m) :
    (vs.map VarPtr.name).Pairwise fun a b => strcmp a b < 0 := by
  have hord := H.stores.ordered
  rw [Ordered, List.pairwise_map] at hord
  rw [List.pairwise_map]
  have hnames := H.names
  rw [List.Nodup, List.pairwise_map] at hnames
  apply (hord.and hnames).imp
  intro v w h
  have hle : strcmp v.name w.name ≤ 0 := h.1
  have hne : strcmp v.name w.name ≠ 0 := fun h0 => h.2 (strcmp_eq_zero.mp h0)
  omega

theorem Holds.mem_names (H : Holds mem tree vs m) (name : Bytes) :
    name ∈ vs.map VarPtr.name ↔ m name ≠ [] := by
  rw [List.mem_map]
  exact H.exists_iff name

/-- Two trees that hold one map have the same names, in the same order. -/
theorem Holds.names_eq (H : Holds mem tree vs m) (H' : Holds mem' tree' vs' m) :
    vs.map VarPtr.name = vs'.map VarPtr.name := by
  have hperm : (vs.map VarPtr.name).Perm (vs'.map VarPtr.name) := by
    rw [List.perm_ext_iff_of_nodup H.names H'.names]
    intro name
    rw [H.mem_names, H'.mem_names]
  refine hperm.eq_of_pairwise ?_ H.sorted H'.sorted
  intro a b _ _ hab hba
  have := compareVars_totalPreorder.swap (searchKey a) (searchKey b)
  have hab' : compareVars (searchKey a) (searchKey b) < 0 := hab
  have hba' : compareVars (searchKey b) (searchKey a) < 0 := hba
  omega

theorem mapM_visits {visits : List (Addr × Option VarPtr)} (h : visits.map Prod.snd = vs.map some)
    (hvalues : ∀ v ∈ vs, mem.values v.addr = some (m v.name)) :
    (visits.mapM fun visit => do
      let var ← visit.2
      let values ← mem.values var.addr
      some (var.name, values)) = some (vs.map fun v => (v.name, m v.name)) := by
  induction vs generalizing visits with
  | nil =>
    rw [List.map_nil, List.map_eq_nil_iff] at h
    rw [h]
    rfl
  | cons v vs ih =>
    obtain ⟨visit, rest, rfl, hv, hrest⟩ := List.map_eq_cons_iff.mp h
    have htail := ih hrest fun w hw => hvalues w (List.mem_cons_of_mem v hw)
    rw [List.mapM_cons, htail, hv, Option.bind_eq_bind, Option.bind_eq_bind, Option.bind_some,
      hvalues v List.mem_cons_self]
    rfl

theorem Holds.readEntries (H : Holds mem tree vs m) :
    readEntries mem tree = some (vs.map fun v => (v.name, m v.name)) := by
  have hnonNull : ∀ k ∈ vs.map some, k ≠ none := by
    intro k hk
    obtain ⟨v, _, rfl⟩ := List.mem_map.mp hk
    exact Option.some_ne_none v
  obtain ⟨first, visits, hfirst, hfollow, hvisits⟩ := H.stores.walk hnonNull
  rw [Httpp.readEntries, hfirst, Option.bind_eq_bind, Option.bind_some, hfollow]
  exact mapM_visits hvisits H.values

/-- What is read depends on the map alone. -/
theorem Holds.readEntries_eq (H : Holds mem tree vs m) (H' : Holds mem' tree' vs' m) :
    Httpp.readEntries mem tree = Httpp.readEntries mem' tree' := by
  have hmap : ∀ us : List VarPtr,
      us.map (fun v => (v.name, m v.name)) = (us.map VarPtr.name).map fun name => (name, m name) := by
    intro us
    rw [List.map_map]
    rfl
  rw [H.readEntries, H'.readEntries, hmap, hmap, H.names_eq H']

end

/-! The maps that a history leaves, latest call first. -/

/-- The value of the last `httpp_setvar` of a name that is not followed by a delete. -/
def lastVar (name : Bytes) : List StoreCall → Option Bytes
  | [] => none
  | .setvar (some n) (some value) :: before =>
    if cString n = name then some (cString value) else lastVar name before
  | .deletevar (some n) :: before => if cString n = name then none else lastVar name before
  | _ :: before => lastVar name before

/-- The decoded value that a call sets a parameter to. -/
def StoreCall.replaces (s : Store) (name : Bytes) : StoreCall → Option Bytes
  | .setQueryParam (some n) (some value) =>
    if s = .query ∧ cString n = name then (decode (cString value)).map cString else none
  | .setPostParam (some n) (some value) =>
    if s = .post ∧ cString n = name then (decode (cString value)).map cString else none
  | _ => none

/-- The values that a form gives a name. -/
def valuesOf (name : Bytes) (fs : List (Bytes × Bytes)) : List Bytes :=
  (fs.filter fun f => f.1 = name).map Prod.snd

/-- The decoded values that a call parses for a name; a body is parsed under the header of
a form only. -/
def StoreCall.parsed (s : Store) (name : Bytes) (before : List StoreCall) : StoreCall → List Bytes
  | .parseQuery (some query) => if s = .query then valuesOf name query.fields else []
  | .parsePostdata (some body) =>
    if s = .post ∧ isForm (lastVar contentType before) then valuesOf name body.fields else []
  | _ => []

/-- The decoded value of the last set of a name, and behind it what was parsed since. -/
def paramValues (s : Store) (name : Bytes) : List StoreCall → List Bytes
  | [] => []
  | call :: before =>
    match call.replaces s name with
    | some value => [value]
    | none => paramValues s name before ++ call.parsed s name before

def mapsOf (calls : List StoreCall) : Maps
  | .vars, name => (lastVar name calls).toList
  | s, name => paramValues s name calls

theorem update_apply (e : Entries) (n name : Bytes) (values : List Bytes) :
    Function.update e n values name = if n = name then values else e name := by
  by_cases h : n = name
  · rw [h, Function.update_self, if_pos rfl]
  · rw [Function.update_of_ne (Ne.symm h), if_neg h]

/-- What `_httpp_set_param` does to one name. -/
theorem set_apply (e : Entries) (n value name : Bytes) :
    e.set n value name =
      match if cString n = name then (decode (cString value)).map cString else none with
      | some decoded => [decoded]
      | none => e name := by
  rw [Entries.set]
  cases decode (cString value) with
  | none =>
    rw [Option.map_none, ite_self]
  | some decoded =>
    rw [Option.map_some]
    show Function.update e (cString n) [cString decoded] name = _
    rw [update_apply]
    by_cases h : cString n = name
    · rw [if_pos h, if_pos h]
    · rw [if_neg h, if_neg h]

theorem addFields_valuesOf (e : Entries) (fs : List (Bytes × Bytes)) (name : Bytes) :
    addFields e fs name = e name ++ valuesOf name fs := addFields_apply e fs name

theorem StoreCall.replaces_other {s : Store} {c : StoreCall} (h : s ≠ c.store) (name : Bytes) :
    c.replaces s name = none := by
  cases c with
  | setvar n value => rfl
  | deletevar n => rfl
  | setQueryParam n value =>
    cases n <;> cases value <;> first | rfl | exact if_neg fun hs => h hs.1
  | setPostParam n value =>
    cases n <;> cases value <;> first | rfl | exact if_neg fun hs => h hs.1
  | parseQuery query => rfl
  | parsePostdata body => rfl

theorem StoreCall.parsed_other {s : Store} {c : StoreCall} (h : s ≠ c.store) (name : Bytes)
    (before : List StoreCall) : c.parsed s name before = [] := by
  cases c with
  | setvar n value => rfl
  | deletevar n => rfl
  | setQueryParam n value => rfl
  | setPostParam n value => rfl
  | parseQuery query => cases query <;> first | rfl | exact if_neg h
  | parsePostdata body => cases body <;> first | rfl | exact if_neg fun hs => h hs.1

/-- A call on another tree adds nothing. -/
theorem paramValues_other {s : Store} {c : StoreCall} (h : s ≠ c.store) (name : Bytes)
    (before : List StoreCall) : paramValues s name (c :: before) = paramValues s name before := by
  rw [paramValues, StoreCall.replaces_other h, StoreCall.parsed_other h]
  exact List.append_nil _

/-- One more call does to the maps of a history what it is for. -/
theorem mapsOf_cons (c : StoreCall) (before : List StoreCall) :
    mapsOf (c :: before) = c.apply (mapsOf before) := by
  funext s name
  by_cases hs : s = c.store
  · subst hs
    cases c with
    | setvar n value =>
      cases n with
      | none => rfl
      | some n =>
        cases value with
        | none => rfl
        | some value =>
          show (lastVar name (_ :: before)).toList =
            (Function.update (mapsOf before .vars) (cString n) [cString value]) name
          rw [update_apply, lastVar]
          by_cases h : cString n = name
          · rw [if_pos h, if_pos h]
            rfl
          · rw [if_neg h, if_neg h]
            rfl
    | deletevar n =>
      cases n with
      | none => rfl
      | some n =>
        show (lastVar name (_ :: before)).toList = (Function.update (mapsOf before .vars) (cString n) []) name
        rw [update_apply, lastVar]
        by_cases h : cString n = name
        · rw [if_pos h, if_pos h]
          rfl
        · rw [if_neg h, if_neg h]
          rfl
    | setQueryParam n value =>
      cases n with
      | none => exact List.append_nil _
      | some n =>
        cases value with
        | none => exact List.append_nil _
        | some value =>
          show paramValues .query name (_ :: before) = Entries.set _ n value name
          rw [set_apply, paramValues, StoreCall.replaces]
          simp only [true_and, StoreCall.parsed, List.append_nil]
          rfl
    | setPostParam n value =>
      cases n with
      | none => exact List.append_nil _
      | some n =>
        cases value with
        | none => exact List.append_nil _
        | some value =>
          show paramValues .post name (_ :: before) = Entries.set _ n value name
          rw [set_apply, paramValues, StoreCall.replaces]
          simp only [true_and, StoreCall.parsed, List.append_nil]
          rfl
    | parseQuery query =>
      cases query with
      | none => exact List.append_nil _
      | some query =>
        show paramValues .query name before ++ valuesOf name query.fields =
          addFields (mapsOf before .query) query.fields name
        rw [addFields_valuesOf]
        rfl
    | parsePostdata body =>
      cases body with
      | none => exact List.append_nil _
      | some body =>
        have hheader : (mapsOf before .vars contentType).head? = lastVar contentType before :=
          Option.head?_toList
        rw [StoreCall.apply, hheader]
        show paramValues .post name before ++ StoreCall.parsed .post name before (.parsePostdata (some body)) = _
        rw [StoreCall.parsed]
        by_cases hform : isForm (lastVar contentType before) = true
        · rw [if_pos ⟨rfl, hform⟩, if_pos hform]
          show _ = addFields (mapsOf before .post) body.fields name
          rw [addFields_valuesOf]
          rfl
        · rw [if_neg fun h => hform h.2, if_neg hform, List.append_nil]
          rfl
  · rw [StoreCall.apply_other _ c hs]
    cases s with
    | vars =>
      cases c with
      | setvar n value => exact absurd rfl hs
      | deletevar n => exact absurd rfl hs
      | setQueryParam n value => rfl
      | setPostParam n value => rfl
      | parseQuery query => rfl
      | parsePostdata body => rfl
    | query => exact paramValues_other hs name before
    | post => exact paramValues_other hs name before

/-! Runs. -/

theorem storeStep_tracks : Tracks storeStep (fun before c _ => c :: before)
    (fun before p => Represents p (mapsOf before)) (fun _ _ => True) (fun _ => True) := by
  intro before c p _ R
  obtain ⟨r, p', e, R'⟩ := R.step c
  refine ⟨r, p', e, ?_, trivial⟩
  show Represents p' (mapsOf (c :: before))
  rw [mapsOf_cons]
  exact R'

/-- Every sequence of calls on a new parser leaves the maps of its history. -/
theorem run_represents (calls : List StoreCall) :
    ∃ p outs p', httppCreateParser = some p ∧ runCalls storeStep calls p = some (outs, p') ∧
      Represents p' (mapsOf calls.reverse) := by
  obtain ⟨p, hp, R, _⟩ := represents_new
  have hempty : Maps.empty = mapsOf [] := by
    funext s name
    cases s <;> rfl
  rw [hempty] at R
  obtain ⟨outs, p', e, R', hposts⟩ := storeStep_tracks.run calls (fun _ _ => trivial) R
  rw [history_record hposts.length_eq, List.append_nil] at R'
  exact ⟨p, outs, p', hp, e, R'⟩

theorem Represents.readEntries {p : Parser} {m : Maps} (R : Represents p m) (s : Store) :
    ∃ es, Httpp.readEntries p.mem (p.tree s) = some es ∧ (es.map Prod.fst).Nodup ∧
      ∀ name values, (name, values) ∈ es ↔ values = m s name ∧ values ≠ [] := by
  obtain ⟨vs, H, _⟩ := R
  refine ⟨_, (H s).readEntries, ?_, ?_⟩
  · rw [List.map_map]
    exact (H s).names
  · intro name values
    rw [List.mem_map]
    constructor
    · intro h
      obtain ⟨v, hv, he⟩ := h
      cases he
      exact ⟨rfl, (H s).filled v hv⟩
    · intro h
      obtain ⟨hm, hne⟩ := h
      rw [hm] at hne
      obtain ⟨v, hv, rfl⟩ := (H s).only name hne
      exact ⟨v, hv, by rw [hm]⟩

theorem Represents.readEntries_eq {p p' : Parser} {m m' : Maps} (R : Represents p m) (R' : Represents p' m')
    {s : Store} (h : m s = m' s) :
    Httpp.readEntries p.mem (p.tree s) = Httpp.readEntries p'.mem (p'.tree s) := by
  obtain ⟨vs, H, _⟩ := R
  obtain ⟨vs', H', _⟩ := R'
  have Hs := H s
  rw [h] at Hs
  exact Hs.readEntries_eq (H' s)

/-- Every sequence of calls goes through. In each tree no name has two entries, and an entry
has the values of its history, at least one; a name without an entry has none there.
`httpp_getvar` returns the value last set. One more call changes no tree but its own. -/
theorem stores_are_maps (calls : List StoreCall) :
    ∃ p outs p', httppCreateParser = some p ∧ runCalls storeStep calls p = some (outs, p') ∧
      (∀ s, ∃ es, readEntries p'.mem (p'.tree s) = some es ∧ (es.map Prod.fst).Nodup ∧
        ∀ name values, (name, values) ∈ es ↔ values = mapsOf calls.reverse s name ∧ values ≠ []) ∧
      (∀ name, httppGetvar p' (some name) = some (lastVar (cString name) calls.reverse)) ∧
      ∀ c, ∃ r p'', storeStep c p' = some (r, p'') ∧
        ∀ s, s ≠ c.store → readEntries p''.mem (p''.tree s) = readEntries p'.mem (p'.tree s) := by
  obtain ⟨p, outs, p', hp, e, R⟩ := run_represents calls
  refine ⟨p, outs, p', hp, e, R.readEntries, ?_, ?_⟩
  · intro name
    rw [R.getvar name]
    show some (lastVar _ _).toList.head? = _
    rw [Option.head?_toList]
  · intro c
    obtain ⟨r, p'', e', R'⟩ := R.step c
    refine ⟨r, p'', e', ?_⟩
    intro s hs
    exact R'.readEntries_eq R (StoreCall.apply_other _ c hs)

end IcecastCommon.Httpp
