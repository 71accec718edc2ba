import IcecastCommon.Httpp.Form
import IcecastCommon.Library.Calls

/- The three trees of a parser as three maps. `Represents` is the invariant: each tree holds
   its map, and no two share an entry, so that what is written through an entry of one tree
   is not seen in another. -/
namespace IcecastCommon.Httpp
open Avl Library
open Encoding (Bytes nul cString cString_of_plain nul_notMem_cString)

/-- The trees of a parser. -/
inductive Store where
  | vars | query | post
  deriving DecidableEq, Repr

def Parser.tree (p : Parser) : Store → Tree
  | .vars => p.vars
  | .query => p.queryvars
  | .post => p.postvars

/-- A map for each tree. -/
abbrev Maps := Store → Entries

def Maps.empty : Maps := fun _ _ => []

/-- The trees of the parser hold the maps, and share no entry. -/
def Represents (p : Parser) (m : Maps) : Prop :=
  ∃ vs : Store → List VarPtr, (∀ s, Holds p.mem (p.tree s) (vs s) (m s)) ∧
    ∀ s t, s ≠ t → Apart (vs s) (vs t)

theorem represents_new : ∃ p, httppCreateParser = some p ∧ Represents p Maps.empty ∧
    p.reqType = .none ∧ p.uri = none := by
  obtain ⟨tree, e, H⟩ := holds_new
  refine ⟨⟨.none, none, tree, tree, tree, VarHeap.empty⟩, ?_, ⟨fun _ => [], ?_, ?_⟩, rfl, rfl⟩
  · rw [httppCreateParser, e]
    rfl
  · intro s
    cases s <;> exact H VarHeap.empty
  · intro s t _ v hv
    exact absurd hv List.not_mem_nil

/-- A parser with one tree exchanged. -/
def Parser.put (p : Parser) (s : Store) (mem : VarHeap) (tree : Tree) : Parser :=
  match s with
  | .vars => { p with mem := mem, vars := tree }
  | .query => { p with mem := mem, queryvars := tree }
  | .post => { p with mem := mem, postvars := tree }

theorem Parser.put_mem (p : Parser) (s : Store) (mem : VarHeap) (tree : Tree) : (p.put s mem tree).mem = mem := by
  cases s <;> rfl

theorem Parser.put_tree (p : Parser) (s : Store) (mem : VarHeap) (tree : Tree) :
    (p.put s mem tree).tree s = tree := by
  cases s <;> rfl

theorem Parser.put_tree_of_ne (p : Parser) {s t : Store} (h : t ≠ s) (mem : VarHeap) (tree : Tree) :
    (p.put s mem tree).tree t = p.tree t := by
  cases s <;> cases t <;> first | rfl | exact absurd rfl h

/-- The map of one tree is exchanged. -/
def Maps.put (m : Maps) (s : Store) (e : Entries) : Maps := Function.update m s e

theorem Maps.put_self (m : Maps) (s : Store) (e : Entries) : m.put s e s = e := Function.update_self ..

theorem Maps.put_of_ne (m : Maps) {s t : Store} (h : t ≠ s) (e : Entries) : m.put s e t = m t :=
  Function.update_of_ne h _ _

/-- What changes one tree and its own entries keeps the others. -/
theorem Represents.put {p : Parser} {m : Maps} {vs : Store → List VarPtr} {s : Store}
    (H : ∀ s, Holds p.mem (p.tree s) (vs s) (m s)) (hapart : ∀ s t, s ≠ t → Apart (vs s) (vs t))
    {mem' : VarHeap} {tree' : Tree} {vs' : List VarPtr} {e : Entries} (H' : Holds mem' tree' vs' e)
    (F : Frame p.mem mem' (vs s) vs') : Represents (p.put s mem' tree') (m.put s e) := by
  have hother : ∀ t, t ≠ s → Holds mem' (p.tree t) (vs t) (m t) ∧ Apart vs' (vs t) := by
    intro t ht
    exact (H t).frame F (hapart s t (Ne.symm ht))
  refine ⟨Function.update vs s vs', ?_, ?_⟩
  · intro t
    rw [Parser.put_mem]
    by_cases ht : t = s
    · rw [ht, Function.update_self, Maps.put_self, Parser.put_tree]
      exact H'
    · rw [Function.update_of_ne ht, Maps.put_of_ne m ht, Parser.put_tree_of_ne p ht]
      exact (hother t ht).1
  · intro t u htu
    by_cases ht : t = s
    · have hu : u ≠ s := fun h => htu (ht.trans h.symm)
      rw [ht, Function.update_self, Function.update_of_ne hu]
      exact (hother u hu).2
    · rw [Function.update_of_ne ht]
      by_cases hu : u = s
      · rw [hu, Function.update_self]
        exact (hother t ht).2.symm
      · rw [Function.update_of_ne hu]
        exact hapart t u htu

theorem Represents.congr {p p' : Parser} {m : Maps} (R : Represents p m) (hmem : p'.mem = p.mem)
    (htree : ∀ s, p'.tree s = p.tree s) : Represents p' m := by
  obtain ⟨vs, H, hapart⟩ := R
  refine ⟨vs, ?_, hapart⟩
  intro s
  rw [hmem, htree]
  exact H s

theorem Represents.getvar {p : Parser} {m : Maps} (R : Represents p m) (name : Bytes) :
    httppGetvar p (some name) = some (m .vars (cString name)).head? := by
  obtain ⟨vs, H, _⟩ := R
  exact (H .vars).getParam name

/-! The calls. -/

/-- What is given to `parse_query`: `len` bytes of a longer text, the first of which is looked
at even when `len` is 0. -/
structure FormBody where
  bytes : Bytes
  len : Nat
  fits : len ≤ bytes.length
  nonempty : bytes ≠ []

/-- The names and values of the fields that are parsed. -/
def FormBody.fields (body : FormBody) : List (Bytes × Bytes) :=
  if body.bytes.head? = some nul then [] else Httpp.fields (body.bytes.take body.len)

/-- The calls that change the trees of a parser. -/
inductive StoreCall where
  | setvar (name value : Option Bytes)
  | deletevar (name : Option Bytes)
  | setQueryParam (name value : Option Bytes)
  | setPostParam (name value : Option Bytes)
  | parseQuery (query : Option FormBody)
  | parsePostdata (body : Option FormBody)

/-- The tree that a call is on. -/
def StoreCall.store : StoreCall → Store
  | .setvar _ _ => .vars
  | .deletevar _ => .vars
  | .setQueryParam _ _ => .query
  | .setPostParam _ _ => .post
  | .parseQuery _ => .query
  | .parsePostdata _ => .post

/-- One call, with what it returns. -/
def storeStep (call : StoreCall) (p : Parser) : Option (Int × Parser) :=
  match call with
  | .setvar name value => (httppSetvar p name value).map (Prod.mk 0)
  | .deletevar name => (httppDeletevar p name).map (Prod.mk 0)
  | .setQueryParam name value => (httppSetQueryParam p name value).map (Prod.mk 0)
  | .setPostParam name value => (httppSetPostParam p name value).map (Prod.mk 0)
  | .parseQuery none => (parseQueryArgs p none 0).map (Prod.mk 0)
  | .parseQuery (some query) => (parseQueryArgs p (some query.bytes) query.len).map (Prod.mk 0)
  | .parsePostdata none => httppParsePostdata p none 0
  | .parsePostdata (some body) => httppParsePostdata p (some body.bytes) body.len

/-- A name gets the decoded value alone, or nothing happens. -/
def Entries.set (e : Entries) (name value : Bytes) : Entries :=
  match decode (cString value) with
  | none => e
  | some decoded => Function.update e (cString name) [cString decoded]

/-- Whether `httpp_parse_postdata` takes a body under this header. -/
def isForm (header : Option Bytes) : Bool :=
  match header with
  | none => false
  | some header => sameIgnoringCase header formUrlencoded

/-- What a call does to the maps. -/
def StoreCall.apply (m : Maps) : StoreCall → Maps
  | .setvar (some name) (some value) => m.put .vars (Function.update (m .vars) (cString name) [cString value])
  | .deletevar (some name) => m.put .vars (Function.update (m .vars) (cString name) [])
  | .setQueryParam (some name) (some value) => m.put .query ((m .query).set name value)
  | .setPostParam (some name) (some value) => m.put .post ((m .post).set name value)
  | .parseQuery (some query) => m.put .query (addFields (m .query) query.fields)
  | .parsePostdata (some body) =>
    if isForm (m .vars contentType).head? then m.put .post (addFields (m .post) body.fields) else m
  | _ => m

/-- A call leaves the other maps alone. -/
theorem StoreCall.apply_other (m : Maps) (c : StoreCall) {t : Store} (h : t ≠ c.store) : c.apply m t = m t := by
  cases c with
  | setvar name value => cases name <;> cases value <;> first | rfl | exact Maps.put_of_ne m h _
  | deletevar name => cases name <;> first | rfl | exact Maps.put_of_ne m h _
  | setQueryParam name value => cases name <;> cases value <;> first | rfl | exact Maps.put_of_ne m h _
  | setPostParam name value => cases name <;> cases value <;> first | rfl | exact Maps.put_of_ne m h _
  | parseQuery query => cases query <;> first | rfl | exact Maps.put_of_ne m h _
  | parsePostdata body =>
    cases body with
    | none => rfl
    | some body =>
      rw [StoreCall.apply]
      by_cases hform : isForm (m .vars contentType).head? = true
      · rw [if_pos hform]
        exact Maps.put_of_ne m h _
      · rw [if_neg hform]

/-- `_httpp_set_param` sets the decoded value, if there is one. -/
theorem setParam_spec {mem : VarHeap} {tree : Tree} {vs : List VarPtr} {m : Entries} (H : Holds mem tree vs m)
    (name value : Bytes) :
    ∃ mem' tree' vs', setParam mem tree (some name) (some value) = some (mem', tree') ∧
      Holds mem' tree' vs' (m.set name value) ∧ Frame mem mem' vs vs' := by
  have hparse : setParam mem tree (some name) (some value) =
      setParamNocopy mem tree (cString name) (decode (cString value)) true := by
    rw [setParam, urlUnescape_spec (Nat.le_refl _), List.take_length]
    rfl
  rw [hparse, Entries.set]
  cases decode (cString value) with
  | none => exact ⟨mem, tree, vs, rfl, H, Frame.refl mem vs⟩
  | some decoded =>
    obtain ⟨mem', tree', vs', e, H', F⟩ := setParamNocopy_spec H (cString name) decoded true
    rw [cString_of_plain (nul_notMem_cString name)] at H'
    exact ⟨mem', tree', vs', e, H', F⟩

/-! Each call on a parser. -/

section
variable {p : Parser} {m : Maps}

/-- `httpp_setvar` gives the name that one value. -/
theorem Represents.setvar (R : Represents p m) (name value : Bytes) :
    ∃ p', httppSetvar p (some name) (some value) = some p' ∧
      Represents p' (m.put .vars (Function.update (m .vars) (cString name) [cString value])) ∧
      p'.reqType = p.reqType ∧ p'.uri = p.uri := by
  obtain ⟨vs, H, hapart⟩ := R
  obtain ⟨mem', tree', vs', e, H', F⟩ := httppSetvar_spec (H .vars) name value
  exact ⟨p.put .vars mem' tree', e, Represents.put H hapart H' F, rfl, rfl⟩

theorem Represents.deletevar (R : Represents p m) (name : Bytes) :
    ∃ p', httppDeletevar p (some name) = some p' ∧
      Represents p' (m.put .vars (Function.update (m .vars) (cString name) [])) ∧
      p'.reqType = p.reqType ∧ p'.uri = p.uri := by
  obtain ⟨vs, H, hapart⟩ := R
  obtain ⟨mem', tree', vs', e, H', F⟩ := httppDeletevar_spec (H .vars) name
  exact ⟨p.put .vars mem' tree', e, Represents.put H hapart H' F, rfl, rfl⟩

theorem Represents.setQueryParam (R : Represents p m) (name value : Bytes) :
    ∃ p', httppSetQueryParam p (some name) (some value) = some p' ∧
      Represents p' (m.put .query ((m .query).set name value)) := by
  obtain ⟨vs, H, hapart⟩ := R
  obtain ⟨mem', tree', vs', e, H', F⟩ := setParam_spec (H .query) name value
  refine ⟨p.put .query mem' tree', ?_, Represents.put H hapart H' F⟩
  rw [httppSetQueryParam]
  exact bind_of_eq e _

theorem Represents.setPostParam (R : Represents p m) (name value : Bytes) :
    ∃ p', httppSetPostParam p (some name) (some value) = some p' ∧
      Represents p' (m.put .post ((m .post).set name value)) := by
  obtain ⟨vs, H, hapart⟩ := R
  obtain ⟨mem', tree', vs', e, H', F⟩ := setParam_spec (H .post) name value
  refine ⟨p.put .post mem' tree', ?_, Represents.put H hapart H' F⟩
  rw [httppSetPostParam]
  exact bind_of_eq e _

theorem Represents.parseQuery (R : Represents p m) (query : FormBody) :
    ∃ p', parseQueryArgs p (some query.bytes) query.len = some p' ∧
      Represents p' (m.put .query (addFields (m .query) query.fields)) ∧
      p'.reqType = p.reqType ∧ p'.uri = p.uri := by
  obtain ⟨vs, H, hapart⟩ := R
  obtain ⟨mem', tree', vs', e, H', F⟩ := parseQuery_spec (H .query) query.fits query.nonempty
  refine ⟨p.put .query mem' tree', ?_, Represents.put H hapart H' F, rfl, rfl⟩
  rw [parseQueryArgs]
  exact bind_of_eq e _

theorem cString_contentType : cString contentType = contentType := by decide

/-- `httpp_parse_postdata` adds what the form gives, when the header is that of a form. -/
theorem Represents.parsePostdata (R : Represents p m) (body : FormBody) :
    ∃ r p', httppParsePostdata p (some body.bytes) body.len = some (r, p') ∧
      Represents p' (if isForm (m .vars contentType).head? then m.put .post (addFields (m .post) body.fields) else m) := by
  have hget := R.getvar contentType
  rw [cString_contentType] at hget
  rw [httppParsePostdata, hget]
  cases (m .vars contentType).head? with
  | none => exact ⟨-1, p, rfl, R⟩
  | some value =>
    by_cases hform : sameIgnoringCase value formUrlencoded = false
    · have hnot : isForm (some value) ≠ true := by
        rw [isForm, hform]
        exact Bool.false_ne_true
      refine ⟨-1, p, if_pos hform, ?_⟩
      rw [if_neg hnot]
      exact R
    · obtain ⟨vs, H, hapart⟩ := R
      obtain ⟨mem', tree', vs', e, H', F⟩ := parseQuery_spec (H .post) body.fits body.nonempty
      have hyes : isForm (some value) = true := Bool.not_eq_false _ ▸ hform
      refine ⟨0, p.put .post mem' tree', (if_neg hform).trans (bind_of_eq e _), ?_⟩
      rw [if_pos hyes]
      exact Represents.put H hapart H' F

theorem Represents.parsePostdata_none (R : Represents p m) :
    ∃ r, httppParsePostdata p none 0 = some (r, p) := by
  have hget := R.getvar contentType
  rw [httppParsePostdata, hget]
  cases (m .vars (cString contentType)).head? with
  | none => exact ⟨-1, rfl⟩
  | some value =>
    by_cases hform : sameIgnoringCase value formUrlencoded = false
    · exact ⟨-1, if_pos hform⟩
    · exact ⟨0, if_neg hform⟩

/-- One call goes through and does to the maps what it is for. -/
theorem Represents.step (R : Represents p m) (c : StoreCall) :
    ∃ r p', storeStep c p = some (r, p') ∧ Represents p' (c.apply m) := by
  have hdone : ∀ {x : Option Parser} {m' : Maps}, (∃ p', x = some p' ∧ Represents p' m') →
      ∃ r p', x.map (Prod.mk (0 : Int)) = some (r, p') ∧ Represents p' m' := by
    intro x m' h
    obtain ⟨p', e, R'⟩ := h
    exact ⟨0, p', by rw [e]; rfl, R'⟩
  have hsame : ∃ r p', some ((0 : Int), p) = some (r, p') ∧ Represents p' m := ⟨0, p, rfl, R⟩
  cases c with
  | setvar name value =>
    cases name with
    | none => exact hsame
    | some name =>
      cases value with
      | none => exact hsame
      | some value =>
        obtain ⟨p', e, R', _⟩ := R.setvar name value
        exact hdone ⟨p', e, R'⟩
  | deletevar name =>
    cases name with
    | none => exact hsame
    | some name =>
      obtain ⟨p', e, R', _⟩ := R.deletevar name
      exact hdone ⟨p', e, R'⟩
  | setQueryParam name value =>
    cases name with
    | none => exact hsame
    | some name =>
      cases value with
      | none => exact hsame
      | some value => exact hdone (R.setQueryParam name value)
  | setPostParam name value =>
    cases name with
    | none => exact hsame
    | some name =>
      cases value with
      | none => exact hsame
      | some value => exact hdone (R.setPostParam name value)
  | parseQuery query =>
    cases query with
    | none => exact hsame
    | some query =>
      obtain ⟨p', e, R', _⟩ := R.parseQuery query
      exact hdone ⟨p', e, R'⟩
  | parsePostdata body =>
    cases body with
    | none =>
      obtain ⟨r, e⟩ := R.parsePostdata_none
      exact ⟨r, p, e, R⟩
    | some body => exact R.parsePostdata body

end

end IcecastCommon.Httpp
