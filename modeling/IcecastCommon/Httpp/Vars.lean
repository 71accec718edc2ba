import IcecastCommon.Avl.Traverse
import IcecastCommon.Encoding.State

/- The variables of `httpp.c`: the three trees of a parser, what sets, appends to, deletes
   and reads their entries, the decoding of form fields and the listing of a namespace.
   Strings are stored up to their NUL, since nothing reads further. The name of an entry
   never changes and is kept in the pointer to it; its values are in the heap, where they
   are written in place and freed. Allocations succeed. An access to a freed entry or
   outside of a string is a fault (`none`). -/
namespace IcecastCommon.Httpp
open Avl
open Encoding (Bytes nul cString)

/-- `strcmp`; only the sign is used. Bytes compare as `unsigned char`. -/
def strcmp (a b : Bytes) : Int :=
  match compare a b with
  | .lt => -1
  | .eq => 0
  | .gt => 1

/-- `tolower` in the C locale. -/
def toLower (c : UInt8) : UInt8 := if 65 ≤ c ∧ c ≤ 90 then c + 32 else c

/-- `strcasecmp (a, b) == 0`. -/
def sameIgnoringCase (a b : Bytes) : Bool := (cString a).map toLower = (cString b).map toLower

/-! Entries. -/

/-- `http_var_t *`: the name of the entry and the address of its values. -/
structure VarPtr where
  name : Bytes
  addr : Nat
  deriving DecidableEq, Repr

/-- The values of the entries allocated; a freed entry has none. -/
structure VarHeap where
  values : Nat → Option (List Bytes)
  next : Nat

namespace VarHeap

def empty : VarHeap := ⟨fun _ => none, 0⟩

/-- A new entry. -/
def alloc (mem : VarHeap) (name : Bytes) (values : List Bytes) : VarPtr × VarHeap :=
  (⟨name, mem.next⟩, ⟨Function.update mem.values mem.next (some values), mem.next + 1⟩)

/-- `var->value[var->values++] = value`. -/
def append (mem : VarHeap) (var : VarPtr) (value : Bytes) : Option VarHeap := do
  let values ← mem.values var.addr
  some { mem with values := Function.update mem.values var.addr (some (values ++ [value])) }

/-- `_free_vars`. -/
def free (mem : VarHeap) (var : VarPtr) : Option VarHeap := do
  let _ ← mem.values var.addr
  some { mem with values := Function.update mem.values var.addr none }

end VarHeap

/-- `_compare_vars`; no tree has a NULL key. -/
def compareVars (a b : Option VarPtr) : Int :=
  strcmp ((a.map VarPtr.name).getD []) ((b.map VarPtr.name).getD [])

/-- A key for looking up a name, as `memset (&var, 0, sizeof (var))` leaves it. -/
def searchKey (name : Bytes) : Option VarPtr := some ⟨name, 0⟩

/-- One of the trees. -/
abbrev Tree := AvlState VarPtr

/-- `avl_delete` with `_free_vars`. -/
def deleteVar (mem : VarHeap) (tree : Tree) (key : Option VarPtr) : Option (VarHeap × Tree) := do
  let (_, tree') ← avlDelete true tree key
  let mem ← (tree'.freed.drop tree.freed.length).foldlM
    (fun mem key => match key with
      | some var => VarHeap.free mem var
      | none => none) mem
  some (mem, tree')

/-- `avl_insert` -/
def insertVar (mem : VarHeap) (tree : Tree) (var : VarPtr) : Option (VarHeap × Tree) := do
  let (_, tree) ← avlInsert true tree (some var)
  some (mem, tree)

/-- `_httpp_get_param_var` -/
def getParamVar (tree : Tree) (name : Bytes) : Option (Option VarPtr) := do
  let found ← avlGetByKey tree (searchKey (cString name))
  match found with
  | none => some none
  | some none => none
  | some (some var) => some (some var)

/-- The first value of an entry, NULL if it has none. -/
def firstValue (mem : VarHeap) (found : Option VarPtr) : Option (Option Bytes) :=
  match found with
  | none => some none
  | some var => do
    let values ← mem.values var.addr
    some values.head?

/-- `_httpp_get_param` -/
def getParam (mem : VarHeap) (tree : Tree) (name : Bytes) : Option (Option Bytes) := do
  let found ← getParamVar tree name
  firstValue mem found

/-- `_httpp_set_param_nocopy`; `name` is not NULL. -/
def setParamNocopy (mem : VarHeap) (tree : Tree) (name : Bytes) (value : Option Bytes) (replace : Bool) :
    Option (VarHeap × Tree) :=
  match value with
  | none => some (mem, tree)
  | some value => do
    let found ← getParamVar tree name
    match replace, found with
    | false, some var => do
      let mem ← mem.append var (cString value)
      some (mem, tree)
    | true, some old => do
      let (var, mem) := mem.alloc (cString name) []
      let mem ← mem.append var (cString value)
      let (mem, tree) ← deleteVar mem tree (some old)
      insertVar mem tree var
    | _, none => do
      let (var, mem) := mem.alloc (cString name) []
      let mem ← mem.append var (cString value)
      insertVar mem tree var

/-! Decoding. -/

/-- `hex` -/
def hex (c : UInt8) : Int :=
  if 48 ≤ c ∧ c ≤ 57 then (c.toNat : Int) - 48
  else if 65 ≤ c ∧ c ≤ 70 then (c.toNat : Int) - 65 + 10
  else if 97 ≤ c ∧ c ≤ 102 then (c.toNat : Int) - 97 + 10
  else -1

/-- `'%'` -/
def percent : UInt8 := 37

/-- `'+'` -/
def plus : UInt8 := 43

/-- `'#'` -/
def hash : UInt8 := 35

/-- `' '` -/
def space : UInt8 := 32

/-- `'&'` -/
def ampersand : UInt8 := 38

/-- `'='` -/
def equalsSign : UInt8 := 61

/-- The loop of `url_unescape` from the position `i` on. -/
def unescapeLoop (src : Bytes) (len : Nat) : Nat → Nat → Bytes → Option (Option Bytes)
  | 0, i, decoded => if i < len then none else some (some decoded)
  | fuel + 1, i, decoded =>
    if i < len then do
      let c ← src[i]?
      if c = percent then
        if i + 2 ≥ len then some none
        else do
          let a ← src[i + 1]?
          let b ← src[i + 2]?
          if hex a = -1 ∨ hex b = -1 then some none
          else unescapeLoop src len fuel (i + 3) (decoded ++ [UInt8.ofNat (hex a * 16 + hex b).toNat])
      else if c = plus then unescapeLoop src len fuel (i + 1) (decoded ++ [space])
      else if c = hash then some (some decoded)
      else if c = nul then some none
      else unescapeLoop src len fuel (i + 1) (decoded ++ [c])
    else some (some decoded)

/-- `url_unescape`: NULL or the bytes before the terminating NUL. -/
def urlUnescape (src : Bytes) (len : Nat) : Option (Option Bytes) := unescapeLoop src len len 0 []

/-- `memcpy` out of a string. -/
def copyBytes (src : Bytes) (start len : Nat) : Option Bytes :=
  if start + len ≤ src.length then some ((src.drop start).take len) else none

/-- `parse_query_element` on the field from `start` to `stop`; pointers are offsets. -/
def parseQueryElement (mem : VarHeap) (tree : Tree) (query : Bytes) (start : Nat) (mid : Option Nat)
    (stop : Nat) : Option (VarHeap × Tree) :=
  if start ≥ stop then some (mem, tree)
  else match mid with
    | none => some (mem, tree)
    | some mid =>
      let keylen := mid - start
      let valuelen := stop - mid - 1
      if keylen = 0 ∨ valuelen = 0 then some (mem, tree)
      else do
        let key ← copyBytes query start keylen
        let value ← urlUnescape (query.drop (mid + 1)) valuelen
        setParamNocopy mem tree key value false

/-- The loop of `parse_query` over `n` more bytes from `i` on, and the last field. -/
def parseQueryLoop (query : Bytes) : Nat → Nat → Nat → Option Nat → VarHeap → Tree → Option (VarHeap × Tree)
  | 0, i, start, mid, mem, tree => parseQueryElement mem tree query start mid i
  | n + 1, i, start, mid, mem, tree => do
    let c ← query[i]?
    if c = ampersand then do
      let (mem, tree) ← parseQueryElement mem tree query start mid i
      parseQueryLoop query n (i + 1) (i + 1) none mem tree
    else if c = equalsSign then parseQueryLoop query n (i + 1) start (some i) mem tree
    else parseQueryLoop query n (i + 1) start mid mem tree

/-- `parse_query`; `query` is the memory the pointer gives access to. -/
def parseQuery (mem : VarHeap) (tree : Tree) (query : Option Bytes) (len : Nat) : Option (VarHeap × Tree) :=
  match query with
  | none => some (mem, tree)
  | some query => do
    let c ← query[0]?
    if c = nul then some (mem, tree) else parseQueryLoop query len 0 0 none mem tree

/-! The parser. -/

/-- `httpp_request_type_e` -/
inductive RequestType where
  | none | get | post | put | head | options | delete | trace | connect | source | play | stats | unknown
  deriving DecidableEq, Repr

/-- `http_parser_t` without `refc`, and the heap of its entries. -/
structure Parser where
  reqType : RequestType
  uri : Option Bytes
  vars : Tree
  queryvars : Tree
  postvars : Tree
  mem : VarHeap

/-- `httpp_create_parser` -/
def httppCreateParser : Option Parser := do
  let vars ← avlTreeNew true true compareVars
  let queryvars ← avlTreeNew true true compareVars
  let postvars ← avlTreeNew true true compareVars
  some { reqType := .none, uri := none, vars := vars, queryvars := queryvars, postvars := postvars,
         mem := VarHeap.empty }

/-- `httpp_getvar` -/
def httppGetvar (parser : Parser) (name : Option Bytes) : Option (Option Bytes) :=
  match name with
  | none => some none
  | some name => getParam parser.mem parser.vars name

/-- `httpp_setvar` -/
def httppSetvar (parser : Parser) (name value : Option Bytes) : Option Parser :=
  match name, value with
  | some name, some value => do
    let (var, mem) := parser.mem.alloc (cString name) [cString value]
    let old ← getParam mem parser.vars name
    match old with
    | none => do
      let (mem, vars) ← insertVar mem parser.vars var
      some { parser with mem := mem, vars := vars }
    | some _ => do
      let (mem, vars) ← deleteVar mem parser.vars (some var)
      let (mem, vars) ← insertVar mem vars var
      some { parser with mem := mem, vars := vars }
  | _, _ => some parser

/-- `httpp_deletevar` -/
def httppDeletevar (parser : Parser) (name : Option Bytes) : Option Parser :=
  match name with
  | none => some parser
  | some name => do
    let (mem, vars) ← deleteVar parser.mem parser.vars (searchKey (cString name))
    some { parser with mem := mem, vars := vars }

/-- `_httpp_set_param` -/
def setParam (mem : VarHeap) (tree : Tree) (name value : Option Bytes) : Option (VarHeap × Tree) :=
  match name, value with
  | some name, some value => do
    let decoded ← urlUnescape (cString value) (cString value).length
    setParamNocopy mem tree (cString name) decoded true
  | _, _ => some (mem, tree)

/-- `httpp_set_query_param` -/
def httppSetQueryParam (parser : Parser) (name value : Option Bytes) : Option Parser := do
  let (mem, tree) ← setParam parser.mem parser.queryvars name value
  some { parser with mem := mem, queryvars := tree }

/-- `httpp_set_post_param` -/
def httppSetPostParam (parser : Parser) (name value : Option Bytes) : Option Parser := do
  let (mem, tree) ← setParam parser.mem parser.postvars name value
  some { parser with mem := mem, postvars := tree }

/-- The call of `parse_query` in `httpp_parse`. -/
def parseQueryArgs (parser : Parser) (query : Option Bytes) (len : Nat) : Option Parser := do
  let (mem, tree) ← parseQuery parser.mem parser.queryvars query len
  some { parser with mem := mem, queryvars := tree }

/-- `content-type` -/
def contentType : Bytes := [99, 111, 110, 116, 101, 110, 116, 45, 116, 121, 112, 101]

/-- `application/x-www-form-urlencoded` -/
def formUrlencoded : Bytes :=
  [97, 112, 112, 108, 105, 99, 97, 116, 105, 111, 110, 47, 120, 45, 119, 119, 119, 45, 102, 111, 114, 109,
   45, 117, 114, 108, 101, 110, 99, 111, 100, 101, 100]

/-- `httpp_parse_postdata` -/
def httppParsePostdata (parser : Parser) (bodyData : Option Bytes) (len : Nat) : Option (Int × Parser) := do
  let header ← httppGetvar parser (some contentType)
  match header with
  | none => some (-1, parser)
  | some header =>
    if sameIgnoringCase header formUrlencoded = false then some (-1, parser)
    else do
      let (mem, tree) ← parseQuery parser.mem parser.postvars bodyData len
      some (0, { parser with mem := mem, postvars := tree })

/-- `http_varlist_t`, as a list of names with their values. -/
abbrev VarList := List (Option Bytes × List (Option Bytes))

/-- `httpp_initialize` -/
def httppInitialize (parser : Parser) (defaults : VarList) : Option Parser :=
  defaults.foldlM (fun parser var => var.2.foldlM (fun parser value => httppSetvar parser var.1 value) parser)
    parser

/-! Namespaces. -/

/-- `httpp_ns_t` -/
inductive Namespace where
  | var | header | queryString | postBody
  deriving DecidableEq, Repr

/-- `'_'` -/
def underscore : UInt8 := 95

/-- The character at `i` of a string, which ends with a NUL. -/
def charAt (s : Bytes) (i : Nat) : Option UInt8 := (s ++ [nul])[i]?

/-- `httpp_get_any_var`; `name[1]` is looked at only after a first underscore. -/
def httppGetAnyVar (parser : Parser) (ns : Namespace) (name : Bytes) : Option (Option VarPtr) := do
  let c ← charAt name 0
  match ns with
  | .var =>
    if c ≠ underscore then some none
    else do
      let d ← charAt name 1
      if d ≠ underscore then some none else getParamVar parser.vars name
  | .header =>
    if c = underscore then do
      let d ← charAt name 1
      if d = underscore then some none else getParamVar parser.vars name
    else getParamVar parser.vars name
  | .queryString => getParamVar parser.queryvars name
  | .postBody => getParamVar parser.postvars name

/-- The `continue` of the listing. -/
def skipsName (ns : Namespace) (name : Bytes) : Option Bool :=
  match ns with
  | .var => do
    let c ← charAt name 0
    if c ≠ underscore then some true
    else do
      let d ← charAt name 1
      some (d ≠ underscore)
  | .header => do
    let c ← charAt name 0
    if c = underscore then do
      let d ← charAt name 1
      some (d = underscore)
    else some false
  | _ => some false

/-- The array of a listing: its `len` cells and how many are used. -/
structure KeyArray where
  cells : List (Option Bytes)
  pos : Nat
  deriving DecidableEq, Repr

/-- `ret[pos++] = name`, in an array that first grows by eight zeroed cells when only the
last cell is left. -/
def KeyArray.add (ret : KeyArray) (name : Bytes) : Option KeyArray :=
  let cells := if ret.pos = ret.cells.length - 1 then ret.cells ++ List.replicate 8 none else ret.cells
  if ret.pos < cells.length then some ⟨cells.set ret.pos (some name), ret.pos + 1⟩ else none

/-- The loop of `httpp_get_any_key` from a node on. -/
def getAnyKeyLoop (ns : Namespace) (h : Heap VarPtr) : Nat → Ptr → KeyArray → Option KeyArray
  | 0, _, _ => none
  | _ + 1, none, ret => some ret
  | fuel + 1, some a, ret => do
    let n ← h.cell a
    let var ← n.key
    let skip ← skipsName ns var.name
    let ret ← (if skip then some ret else ret.add var.name)
    let next ← avlGetNext h (some a)
    getAnyKeyLoop ns h fuel next ret

/-- The tree that `httpp_get_any_key` chooses. -/
def chooseTree (parser : Parser) (ns : Namespace) : Tree :=
  match ns with
  | .var => parser.vars
  | .header => parser.vars
  | .queryString => parser.queryvars
  | .postBody => parser.postvars

/-- `httpp_get_any_key` -/
def httppGetAnyKey (parser : Parser) (ns : Namespace) : Option (List (Option Bytes)) := do
  let tree := chooseTree parser ns
  let first ← avlGetFirst tree
  let ret ← getAnyKeyLoop ns tree.heap tree.heap.next first ⟨List.replicate 8 none, 0⟩
  some ret.cells

end IcecastCommon.Httpp
