import IcecastCommon.Httpp.Reachable
import IcecastCommon.Httpp.Variables

/- The listing of a namespace against the lookup in it. Both test a name for two leading
   underscores; the listing walks the tree and fills an array that always has a NULL left. -/
namespace IcecastCommon.Httpp
open Avl Library
open Encoding (Bytes nul cString cString_of_plain)

/-! Names. -/

/-- The namespace has the name, when its tree does. -/
def keepsName (ns : Namespace) (name : Bytes) : Bool :=
  match ns with
  | .var => Internal name
  | .header => ¬ Internal name
  | .queryString => true
  | .postBody => true

/-- The tree of a namespace. -/
def Namespace.store : Namespace → Store
  | .var => .vars
  | .header => .vars
  | .queryString => .query
  | .postBody => .post

theorem cString_cons {c : UInt8} (h : c ≠ nul) (s : Bytes) : cString (c :: s) = c :: cString s := by
  rw [cString, List.takeWhile_cons, if_pos (decide_eq_true h)]
  rfl

theorem not_internal_cons {c : UInt8} (h : c ≠ underscore) (s : Bytes) : ¬ Internal (c :: s) := by
  intro hi
  have hcons : c :: s.take 1 = [underscore, underscore] := hi
  exact h (List.cons.inj hcons).1

/-- What both tests of a name find out. -/
theorem charAt_internal (s : Bytes) :
    ∃ c, charAt s 0 = some c ∧ (c ≠ underscore → ¬ Internal (cString s)) ∧
      (c = underscore → ∃ d, charAt s 1 = some d ∧ (d = underscore ↔ Internal (cString s))) := by
  have hnul : nul ≠ underscore := by decide
  cases s with
  | nil => exact ⟨nul, rfl, fun _ => by decide, fun h => absurd h hnul⟩
  | cons c s =>
    refine ⟨c, rfl, ?_, ?_⟩
    · intro hc
      by_cases hz : c = nul
      · rw [hz]
        exact fun h => absurd h (by decide : ¬ Internal [])
      · rw [cString_cons hz]
        exact not_internal_cons hc _
    · intro hc
      subst hc
      rw [cString_cons hnul.symm]
      cases s with
      | nil => exact ⟨nul, rfl, by decide⟩
      | cons d s =>
        refine ⟨d, rfl, ?_⟩
        by_cases hz : d = nul
        · rw [hz]
          exact ⟨fun h => absurd h hnul, fun h => absurd h (by decide : ¬ Internal [underscore])⟩
        · rw [cString_cons hz]
          constructor
          · intro hd
            rw [hd]
            rfl
          · intro hi
            have hcons : [underscore, d] = [underscore, underscore] := hi
            exact (List.cons.inj (List.cons.inj hcons).2).1

/-- The listing skips what its namespace does not keep. -/
theorem skipsName_eq (ns : Namespace) {name : Bytes} (h : nul ∉ name) :
    skipsName ns name = some (!keepsName ns name) := by
  obtain ⟨c, hc, hother, hfirst⟩ := charAt_internal name
  rw [cString_of_plain h] at hother hfirst
  cases ns with
  | var =>
    rw [skipsName, hc, Option.bind_eq_bind, Option.bind_some, keepsName]
    by_cases hu : c = underscore
    · obtain ⟨d, hd, hiff⟩ := hfirst hu
      rw [if_neg (not_not.mpr hu), hd, Option.bind_some]
      simp [hiff]
    · rw [if_pos hu]
      simp [hother hu]
  | header =>
    rw [skipsName, hc, Option.bind_eq_bind, Option.bind_some, keepsName]
    by_cases hu : c = underscore
    · obtain ⟨d, hd, hiff⟩ := hfirst hu
      rw [if_pos hu, hd, Option.bind_some]
      simp [hiff]
    · rw [if_neg hu]
      simp [hother hu]
  | queryString => rfl
  | postBody => rfl

/-- `httpp_get_any_var` looks up what its namespace keeps. -/
theorem httppGetAnyVar_eq (p : Parser) (ns : Namespace) (name : Bytes) :
    httppGetAnyVar p ns name =
      if keepsName ns (cString name) then getParamVar (p.tree ns.store) name else some none := by
  obtain ⟨c, hc, hother, hfirst⟩ := charAt_internal name
  rw [httppGetAnyVar, hc, Option.bind_eq_bind, Option.bind_some]
  cases ns with
  | var =>
    rw [keepsName]
    by_cases hu : c = underscore
    · obtain ⟨d, hd, hiff⟩ := hfirst hu
      dsimp only
      rw [if_neg (not_not.mpr hu), hd, Option.bind_some]
      by_cases hi : Internal (cString name)
      · rw [if_neg (not_not.mpr (hiff.mpr hi)), if_pos (decide_eq_true hi)]
        rfl
      · rw [if_pos fun h => hi (hiff.mp h), if_neg (by simpa using hi)]
    · dsimp only
      rw [if_pos hu, if_neg (by simpa using hother hu)]
  | header =>
    rw [keepsName]
    by_cases hu : c = underscore
    · obtain ⟨d, hd, hiff⟩ := hfirst hu
      dsimp only
      rw [if_pos hu, hd, Option.bind_some]
      by_cases hi : Internal (cString name)
      · rw [if_pos (hiff.mpr hi), if_neg (by simpa using hi)]
      · rw [if_neg fun h => hi (hiff.mp h), if_pos (decide_eq_true hi)]
        rfl
    · dsimp only
      rw [if_neg hu, if_pos (decide_eq_true (hother hu))]
      rfl
  | queryString => rfl
  | postBody => rfl

/-! The array. -/

/-- The array holds the names, and at least one NULL behind them. -/
def Lists (ret : KeyArray) (names : List Bytes) : Prop :=
  ∃ n, ret.cells = names.map some ++ List.replicate (n + 1) none ∧ ret.pos = names.length

theorem lists_new : Lists ⟨List.replicate 8 none, 0⟩ [] := ⟨7, rfl, rfl⟩

/-- A name is added, and a NULL stays behind it. -/
theorem Lists.add {ret : KeyArray} {names : List Bytes} (L : Lists ret names) (name : Bytes) :
    ∃ ret', ret.add name = some ret' ∧ Lists ret' (names ++ [name]) := by
  obtain ⟨n, hcells, hpos⟩ := L
  -- there are two cells or more when the name is written
  obtain ⟨k, hk⟩ : ∃ k, (if ret.pos = ret.cells.length - 1 then ret.cells ++ List.replicate 8 none
      else ret.cells) = names.map some ++ none :: List.replicate (k + 1) none := by
    by_cases hlast : ret.pos = ret.cells.length - 1
    · rw [if_pos hlast, hcells]
      have hn : n = 0 := by
        rw [hcells, hpos, List.length_append, List.length_map, List.length_replicate] at hlast
        omega
      subst hn
      exact ⟨7, by rw [List.append_assoc]; rfl⟩
    · rw [if_neg hlast, hcells]
      obtain ⟨k, rfl⟩ : ∃ k, n = k + 1 := by
        rw [hcells, hpos, List.length_append, List.length_map, List.length_replicate] at hlast
        exact ⟨n - 1, by omega⟩
      exact ⟨k, rfl⟩
  have hfits : ret.pos < (names.map some ++ none :: List.replicate (k + 1) none).length := by
    rw [hpos, List.length_append, List.length_map, List.length_cons]
    omega
  refine ⟨⟨(names ++ [name]).map some ++ List.replicate (k + 1) none, ret.pos + 1⟩, ?_, k, rfl, ?_⟩
  · rw [KeyArray.add, hk, if_pos hfits, hpos]
    have hlen : (names.map (some (α := Bytes))).length = names.length := List.length_map _
    rw [List.set_append_right _ _ (Nat.le_of_eq hlen), hlen, Nat.sub_self, List.set_cons_zero, List.map_append,
      List.append_assoc]
    rfl
  · rw [hpos, List.length_append]
    rfl

/-- The loop of the listing adds the names that it keeps. -/
theorem getAnyKeyLoop_spec (ns : Namespace) {h : Heap VarPtr} {fuel : Nat} {node : Ptr}
    {visits : List (Addr × Option VarPtr)} (hfollow : follow (avlGetNext h) h fuel node = some visits)
    {vs : List VarPtr} (hvisits : visits.map Prod.snd = vs.map some) (hplain : ∀ v ∈ vs, nul ∉ v.name)
    {ret : KeyArray} {names : List Bytes} (L : Lists ret names) :
    ∃ ret', getAnyKeyLoop ns h fuel node ret = some ret' ∧
      Lists ret' (names ++ (vs.map VarPtr.name).filter (keepsName ns)) := by
  -- on the fuel; `names` are the names listed so far
  induction fuel generalizing node visits vs ret names with
  | zero => cases hfollow
  | succ fuel ih =>
    cases node with
    | none =>
      cases hfollow
      have hvs : vs = [] := List.map_eq_nil_iff.mp hvisits.symm
      refine ⟨ret, rfl, ?_⟩
      rw [hvs, List.map_nil, List.filter_nil, List.append_nil]
      exact L
    | some a =>
      rw [follow] at hfollow
      obtain ⟨n, hn, hfollow⟩ := Option.bind_eq_some_iff.mp hfollow
      obtain ⟨next, hnext, hfollow⟩ := Option.bind_eq_some_iff.mp hfollow
      obtain ⟨rest, hrest, hfollow⟩ := Option.bind_eq_some_iff.mp hfollow
      obtain rfl := Option.some.inj hfollow
      rw [List.map_cons] at hvisits
      obtain ⟨v, vs, rfl, hkey, hvs⟩ := List.map_eq_cons_iff.mp hvisits.symm
      have hname := hplain v List.mem_cons_self
      have htail : ∀ w ∈ vs, nul ∉ w.name := fun w hw => hplain w (List.mem_cons_of_mem v hw)
      have hkey' : n.key = some v := hkey.symm
      rw [getAnyKeyLoop, Option.bind_eq_bind, bind_of_eq hn, Option.bind_eq_bind, bind_of_eq hkey',
        Option.bind_eq_bind, bind_of_eq (skipsName_eq ns hname), List.map_cons]
      cases hkeep : keepsName ns v.name with
      | true =>
        obtain ⟨ret₁, e₁, L₁⟩ := L.add v.name
        obtain ⟨ret', e', L'⟩ := ih hrest hvs.symm htail L₁
        refine ⟨ret', ?_, ?_⟩
        · rw [Bool.not_true, if_neg Bool.false_ne_true, Option.bind_eq_bind, bind_of_eq e₁, Option.bind_eq_bind,
            bind_of_eq hnext, e']
        · rw [List.filter_cons_of_pos hkeep]
          rw [List.append_assoc] at L'
          exact L'
      | false =>
        obtain ⟨ret', e', L'⟩ := ih hrest hvs.symm htail L
        refine ⟨ret', ?_, ?_⟩
        · rw [Bool.not_false, if_pos rfl, Option.bind_eq_bind, Option.bind_some, Option.bind_eq_bind,
            bind_of_eq hnext, e']
        · rw [List.filter_cons_of_neg (by rw [hkeep]; exact Bool.false_ne_true)]
          exact L'

/-! Listing and lookup. -/

theorem chooseTree_eq (p : Parser) (ns : Namespace) : chooseTree p ns = p.tree ns.store := by
  cases ns <;> rfl

section
variable {p : Parser} {vs : List VarPtr} {m : Entries} {ns : Namespace}

/-- `httpp_get_any_key` lists the names of its tree that its namespace keeps, in order. -/
theorem httppGetAnyKey_spec (H : Holds p.mem (p.tree ns.store) vs m) (hplain : ∀ v ∈ vs, nul ∉ v.name) :
    ∃ n, httppGetAnyKey p ns =
      some (((vs.map VarPtr.name).filter (keepsName ns)).map some ++ List.replicate (n + 1) none) := by
  have hnonNull : ∀ k ∈ vs.map some, k ≠ none := by
    intro k hk
    obtain ⟨v, _, rfl⟩ := List.mem_map.mp hk
    exact Option.some_ne_none v
  obtain ⟨first, visits, hfirst, hfollow, hvisits⟩ := H.stores.walk hnonNull
  obtain ⟨ret, e, n, hcells, _⟩ := getAnyKeyLoop_spec ns hfollow hvisits hplain lists_new
  refine ⟨n, ?_⟩
  rw [httppGetAnyKey, chooseTree_eq, Option.bind_eq_bind, bind_of_eq hfirst, Option.bind_eq_bind, bind_of_eq e, hcells]
  rfl

/-- `httpp_get_any_var` finds the names of its tree that its namespace keeps. -/
theorem httppGetAnyVar_spec (H : Holds p.mem (p.tree ns.store) vs m) (name : Bytes) :
    ∃ r, httppGetAnyVar p ns name = some r ∧
      (cString name ∈ (vs.map VarPtr.name).filter (keepsName ns) ↔ r ≠ none) := by
  rw [httppGetAnyVar_eq, List.mem_filter, H.mem_names]
  cases hkeep : keepsName ns (cString name) with
  | false => exact ⟨none, rfl, by simp⟩
  | true =>
    rw [if_pos rfl]
    by_cases hmem : m (cString name) = []
    · exact ⟨none, H.missing hmem, by simp [hmem]⟩
    · obtain ⟨v, _, _, hfound⟩ := H.found hmem
      exact ⟨some v, hfound, by simp [hmem]⟩

end

/-- After any public calls on a new parser, the listing of a namespace is an array of the
names that the lookup in it finds, in order and each once, with a NULL behind them. The
internal names and those of the headers are all names of their tree, and have none in
common. -/
theorem listing_agrees (calls : List ParserCall) :
    ∃ p outs p', httppCreateParser = some p ∧ runCalls parserStep calls p = some (outs, p') ∧
      ∃ names : Namespace → List Bytes,
        (∀ ns, (∃ n, httppGetAnyKey p' ns = some ((names ns).map some ++ List.replicate (n + 1) none)) ∧
          (names ns).Pairwise (fun a b => strcmp a b < 0) ∧ (∀ k ∈ names ns, nul ∉ k) ∧
          ∀ k, ∃ r, httppGetAnyVar p' ns k = some r ∧ (cString k ∈ names ns ↔ r ≠ none)) ∧
        (names .var).Disjoint (names .header) ∧
        ∃ es, readEntries p'.mem p'.vars = some es ∧ (names .var ++ names .header).Perm (es.map Prod.fst) := by
  obtain ⟨p, outs, p', hp, e, m, ⟨vs, H, _⟩, hplain⟩ := run_sound calls
  have hstrings : ∀ s, ∀ v ∈ vs s, nul ∉ v.name := fun s v hv => hplain s v.name ((H s).filled v hv)
  refine ⟨p, outs, p', hp, e,
    fun ns => ((vs ns.store).map VarPtr.name).filter (keepsName ns), ?_, ?_, ?_⟩
  · intro ns
    refine ⟨httppGetAnyKey_spec (H ns.store) (hstrings ns.store), (H ns.store).sorted.filter _, ?_, ?_⟩
    · intro k hk
      obtain ⟨v, hv, rfl⟩ := List.mem_map.mp (List.mem_filter.mp hk).1
      exact hstrings ns.store v hv
    · exact httppGetAnyVar_spec (H ns.store)
  · intro k hvar hheader
    have hinternal : Internal k := of_decide_eq_true (List.mem_filter.mp hvar).2
    have hnot : ¬ Internal k := of_decide_eq_true (List.mem_filter.mp hheader).2
    exact hnot hinternal
  · refine ⟨_, (H .vars).readEntries, ?_⟩
    have hnames : ((vs .vars).map fun v => (v.name, m .vars v.name)).map Prod.fst = (vs .vars).map VarPtr.name := by
      rw [List.map_map]
      rfl
    have hheader : keepsName .header = fun name => !keepsName .var name := by
      funext name
      exact decide_not
    rw [hnames]
    show (((vs .vars).map VarPtr.name).filter (keepsName .var) ++
      ((vs .vars).map VarPtr.name).filter (keepsName .header)).Perm _
    rw [hheader]
    exact List.filter_append_perm _ _

end IcecastCommon.Httpp
