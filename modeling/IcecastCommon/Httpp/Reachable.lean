import IcecastCommon.Httpp.Response
import IcecastCommon.Httpp.Stores

/- The states of a parser. Every public call goes through on trees that hold maps whose names
   are strings, and leaves such trees (`Sound`), so every sequence of calls on a new parser
   does. -/
namespace IcecastCommon.Httpp
open Avl Library
open Encoding (Bytes nul cString cString_of_plain nul_notMem_cString)

/-! The public calls. -/

/-- The public calls on a parser; of those on one tree only `parse_query` is internal. -/
inductive ParserCall where
  | setDefaults (defaults : VarList)
  | parse (httpData : Option Bytes)
  | parseResponse (httpData uri : Option Bytes)
  | store (call : StoreCall)

/-- One call, with what it returns. -/
def parserStep (call : ParserCall) (p : Parser) : Option (Int × Parser) :=
  match call with
  | .setDefaults defaults => (httppInitialize p defaults).map (Prod.mk 0)
  | .parse httpData => httppParse p httpData
  | .parseResponse httpData uri => httppParseResponse p httpData uri
  | .store call => storeStep call p

/-- The names are strings. -/
def PlainNames (m : Maps) : Prop := ∀ s name, m s name ≠ [] → nul ∉ name

/-- The trees hold maps of strings. -/
def Sound (p : Parser) : Prop := ∃ m, Represents p m ∧ PlainNames m

theorem update_plain {e : Entries} (h : ∀ name, e name ≠ [] → nul ∉ name) {n : Bytes} (hn : nul ∉ n)
    (values : List Bytes) (name : Bytes) : Function.update e n values name ≠ [] → nul ∉ name := by
  rw [update_apply]
  by_cases heq : n = name
  · rw [if_pos heq]
    exact fun _ => heq ▸ hn
  · rw [if_neg heq]
    exact h name

theorem set_plain {e : Entries} (h : ∀ name, e name ≠ [] → nul ∉ name) (n value name : Bytes) :
    e.set n value name ≠ [] → nul ∉ name := by
  rw [Entries.set]
  cases decode (cString value) with
  | none => exact h name
  | some decoded => exact update_plain h (nul_notMem_cString n) [cString decoded] name

theorem field_plain {e : Bytes} {f : Bytes × Bytes} (h : field e = some f) : nul ∉ f.1 := by
  rw [field] at h
  cases hsplit : splitLast e with
  | none =>
    rw [hsplit] at h
    cases h
  | some kv =>
    obtain ⟨key, value⟩ := kv
    rw [hsplit] at h
    dsimp only at h
    by_cases hempty : key = [] ∨ value = []
    · rw [if_pos hempty] at h
      cases h
    · rw [if_neg hempty] at h
      obtain ⟨v, _, rfl⟩ := Option.map_eq_some_iff.mp h
      exact nul_notMem_cString key

theorem fields_plain {query : Bytes} : ∀ f ∈ fields query, nul ∉ f.1 := by
  intro f hf
  obtain ⟨e, _, he⟩ := List.mem_filterMap.mp hf
  exact field_plain he

theorem addFields_plain {e : Entries} (h : ∀ name, e name ≠ [] → nul ∉ name) {fs : List (Bytes × Bytes)}
    (hfs : ∀ f ∈ fs, nul ∉ f.1) (name : Bytes) : addFields e fs name ≠ [] → nul ∉ name := by
  induction fs generalizing e with
  | nil => exact h name
  | cons f fs ih =>
    have hf := hfs f List.mem_cons_self
    have hrest : ∀ g ∈ fs, nul ∉ g.1 := fun g hg => hfs g (List.mem_cons_of_mem f hg)
    exact ih (fun n => update_plain h hf _ n) hrest

theorem PlainNames.put {m : Maps} (h : PlainNames m) (s : Store) {e : Entries}
    (he : ∀ name, e name ≠ [] → nul ∉ name) : PlainNames (m.put s e) := by
  intro t name
  by_cases ht : t = s
  · rw [ht, Maps.put_self]
    exact he name
  · rw [Maps.put_of_ne m ht]
    exact h t name

theorem body_fields_plain (body : FormBody) : ∀ f ∈ body.fields, nul ∉ f.1 := by
  rw [FormBody.fields]
  by_cases hnul : body.bytes.head? = some nul
  · rw [if_pos hnul]
    intro f hf
    exact absurd hf List.not_mem_nil
  · rw [if_neg hnul]
    exact fields_plain

/-- No call stores a name that is not a string. -/
theorem PlainNames.apply {m : Maps} (h : PlainNames m) (c : StoreCall) : PlainNames (c.apply m) := by
  cases c with
  | setvar name value =>
    cases name with
    | none => exact h
    | some name =>
      cases value with
      | none => exact h
      | some value => exact h.put .vars fun n => update_plain (h .vars) (nul_notMem_cString name) _ n
  | deletevar name =>
    cases name with
    | none => exact h
    | some name => exact h.put .vars fun n => update_plain (h .vars) (nul_notMem_cString name) _ n
  | setQueryParam name value =>
    cases name with
    | none => exact h
    | some name =>
      cases value with
      | none => exact h
      | some value => exact h.put .query fun n => set_plain (h .query) name value n
  | setPostParam name value =>
    cases name with
    | none => exact h
    | some name =>
      cases value with
      | none => exact h
      | some value => exact h.put .post fun n => set_plain (h .post) name value n
  | parseQuery query =>
    cases query with
    | none => exact h
    | some query => exact h.put .query fun n => addFields_plain (h .query) (body_fields_plain query) n
  | parsePostdata body =>
    cases body with
    | none => exact h
    | some body =>
      rw [StoreCall.apply]
      by_cases hform : isForm (m .vars contentType).head? = true
      · rw [if_pos hform]
        exact h.put .post fun n => addFields_plain (h .post) (body_fields_plain body) n
      · rw [if_neg hform]
        exact h

theorem PlainNames.foldl {m : Maps} (h : PlainNames m) (calls : List StoreCall) :
    PlainNames (calls.foldl StoreCall.apply m) := by
  induction calls generalizing m with
  | nil => exact h
  | cons c calls ih => exact ih (h.apply c)

/-- What `httpp_initialize` sets. -/
def defaultCalls (defaults : VarList) : List StoreCall :=
  defaults.flatMap fun var => var.2.map fun value => .setvar var.1 value

/-- A variable is set when it has a name and a value. -/
theorem Represents.setvar_all {p : Parser} {m : Maps} (R : Represents p m) (name value : Option Bytes) :
    ∃ p', httppSetvar p name value = some p' ∧ Represents p' (StoreCall.apply m (.setvar name value)) ∧
      p'.reqType = p.reqType ∧ p'.uri = p.uri := by
  cases name with
  | none => exact ⟨p, rfl, R, rfl, rfl⟩
  | some name => exact R.setvar_any name value

theorem Represents.values {p : Parser} {m : Maps} (R : Represents p m) (name : Option Bytes)
    (values : List (Option Bytes)) :
    ∃ p', values.foldlM (fun parser value => httppSetvar parser name value) p = some p' ∧
      Represents p' ((values.map fun value => StoreCall.setvar name value).foldl StoreCall.apply m) ∧
      p'.reqType = p.reqType ∧ p'.uri = p.uri := by
  induction values generalizing p m with
  | nil => exact ⟨p, rfl, R, rfl, rfl⟩
  | cons value values ih =>
    obtain ⟨p₁, e₁, R₁, hreq₁, huri₁⟩ := R.setvar_all name value
    obtain ⟨p', e', R', hreq, huri⟩ := ih R₁
    refine ⟨p', ?_, R', hreq.trans hreq₁, huri.trans huri₁⟩
    rw [List.foldlM_cons, Option.bind_eq_bind, bind_of_eq e₁, e']

theorem Represents.defaults {p : Parser} {m : Maps} (R : Represents p m) (defaults : VarList) :
    ∃ p', httppInitialize p defaults = some p' ∧
      Represents p' ((defaultCalls defaults).foldl StoreCall.apply m) ∧
      p'.reqType = p.reqType ∧ p'.uri = p.uri := by
  rw [httppInitialize, defaultCalls]
  induction defaults generalizing p m with
  | nil => exact ⟨p, rfl, R, rfl, rfl⟩
  | cons var defaults ih =>
    obtain ⟨p₁, e₁, R₁, hreq₁, huri₁⟩ := R.values var.1 var.2
    obtain ⟨p', e', R', hreq, huri⟩ := ih R₁
    refine ⟨p', ?_, ?_, hreq.trans hreq₁, huri.trans huri₁⟩
    · rw [List.foldlM_cons, Option.bind_eq_bind, bind_of_eq e₁, e']
    · rw [List.flatMap_cons, List.foldl_append]
      exact R'

theorem Sound.setDefaults {p : Parser} (S : Sound p) (defaults : VarList) :
    ∃ p', httppInitialize p defaults = some p' ∧ Sound p' := by
  obtain ⟨m, R, h⟩ := S
  obtain ⟨p', e, R', _⟩ := R.defaults defaults
  exact ⟨p', e, _, R', h.foldl _⟩

/-- Every public call goes through and keeps the trees sound. -/
theorem Sound.step {p : Parser} (S : Sound p) (call : ParserCall) :
    ∃ r p', parserStep call p = some (r, p') ∧ Sound p' := by
  cases call with
  | setDefaults defaults =>
    obtain ⟨p', e, S'⟩ := S.setDefaults defaults
    exact ⟨0, p', by rw [parserStep, e]; rfl, S'⟩
  | parse httpData =>
    cases httpData with
    | none => exact ⟨0, p, rfl, S⟩
    | some text =>
      obtain ⟨m, R, h⟩ := S
      obtain ⟨p', e, R', _⟩ := httppParse_spec R text
      exact ⟨_, p', e, _, R', h.foldl _⟩
  | parseResponse httpData uri =>
    cases httpData with
    | none => exact ⟨0, p, rfl, S⟩
    | some text =>
      obtain ⟨m, R, h⟩ := S
      obtain ⟨p', e, R', _⟩ := httppParseResponse_spec R text uri
      exact ⟨_, p', e, _, R', h.foldl _⟩
  | store call =>
    obtain ⟨m, R, h⟩ := S
    obtain ⟨r, p', e, R'⟩ := R.step call
    exact ⟨r, p', e, _, R', h.apply call⟩

theorem run_sound (calls : List ParserCall) :
    ∃ p outs p', httppCreateParser = some p ∧ runCalls parserStep calls p = some (outs, p') ∧ Sound p' := by
  obtain ⟨p, hp, R, _⟩ := represents_new
  have hplain : PlainNames Maps.empty := fun _ _ h => absurd rfl h
  have T : Tracks parserStep (fun (_ : Unit) _ _ => ()) (fun _ p => Sound p) (fun _ _ => True) fun _ => True := by
    intro _ call p _ S
    obtain ⟨r, p', e, S'⟩ := S.step call
    exact ⟨r, p', e, S', trivial⟩
  have S : Sound p := ⟨Maps.empty, R, hplain⟩
  obtain ⟨outs, p', e, S', _⟩ := T.run calls (fun _ _ => trivial) (h := ()) S
  exact ⟨p, outs, p', hp, e, S'⟩

end IcecastCommon.Httpp
