import IcecastCommon.Httpp.Form

/- Encoding a form and parsing it. `Encodes` allows every usual way to write a value: a
   space as `+` or as an escape, and hexadecimal digits of either case. -/
namespace IcecastCommon.Httpp
open Avl Library
open Encoding (Bytes nul cString cString_of_plain)

/-! Encoding. -/

/-- Letters, digits, `-`, `_`, `.` and `~`. -/
def Unreserved (c : UInt8) : Prop :=
  48 ≤ c.toNat ∧ c.toNat ≤ 57 ∨ 65 ≤ c.toNat ∧ c.toNat ≤ 90 ∨ 97 ≤ c.toNat ∧ c.toNat ≤ 122 ∨
    c.toNat = 45 ∨ c.toNat = 95 ∨ c.toNat = 46 ∨ c.toNat = 126

instance (c : UInt8) : Decidable (Unreserved c) := by unfold Unreserved; infer_instance

/-- A hexadecimal digit of either case. -/
def HexDigit (n : Nat) (d : UInt8) : Prop :=
  n < 10 ∧ d.toNat = 48 + n ∨ 10 ≤ n ∧ n < 16 ∧ (d.toNat = 55 + n ∨ d.toNat = 87 + n)

inductive EncodesByte (c : UInt8) : Bytes → Prop where
  | unreserved (h : Unreserved c) : EncodesByte c [c]
  | plus (h : c = space) : EncodesByte c [plus]
  | escape {hi lo : UInt8} (h : ¬ Unreserved c) (hhi : HexDigit (c.toNat / 16) hi)
      (hlo : HexDigit (c.toNat % 16) lo) : EncodesByte c [percent, hi, lo]

inductive Encodes : Bytes → Bytes → Prop where
  | nil : Encodes [] []
  | cons {c : UInt8} {s e t : Bytes} (hc : EncodesByte c e) (hs : Encodes s t) : Encodes (c :: s) (e ++ t)

/-- A name and a value of a form, with the value encoded. -/
structure FormPair where
  key : Bytes
  value : Bytes
  code : Bytes
  key_ne : key ≠ []
  key_ampersand : ampersand ∉ key
  key_equals : equalsSign ∉ key
  key_nul : nul ∉ key
  value_ne : value ≠ []
  value_nul : nul ∉ value
  encodes : Encodes value code

def FormPair.text (pair : FormPair) : Bytes := pair.key ++ equalsSign :: pair.code

/-- The encoded form. -/
def formText (pairs : List FormPair) : Bytes := [ampersand].intercalate (pairs.map FormPair.text)

/-! Decoding. -/

theorem hex_of_hexDigit {n : Nat} {d : UInt8} (h : HexDigit n d) : hex d = n := by
  unfold HexDigit at h
  unfold hex
  simp only [UInt8.le_iff_toNat_le, UInt8.reduceToNat]
  split
  · omega
  split
  · omega
  split <;> omega

theorem unreserved_ne {c d : UInt8} (hc : Unreserved c) (hd : ¬ Unreserved d) : c ≠ d := by
  intro h
  exact hd (h ▸ hc)

theorem decode_digits {n m : Nat} {hi lo : UInt8} (hhi : HexDigit n hi) (hlo : HexDigit m lo) (rest : Bytes) :
    decode (percent :: hi :: lo :: rest) = (decode rest).map (UInt8.ofNat (n * 16 + m) :: ·) := by
  have hdigits : ¬ (hex hi = -1 ∨ hex lo = -1) := by
    rw [hex_of_hexDigit hhi, hex_of_hexDigit hlo]
    omega
  have hval : (hex hi * 16 + hex lo).toNat = n * 16 + m := by
    rw [hex_of_hexDigit hhi, hex_of_hexDigit hlo]
    omega
  rw [decode_escape, if_neg hdigits, hval]

theorem decode_plus (rest : Bytes) : decode (plus :: rest) = (decode rest).map (space :: ·) := by
  have hpercent : plus ≠ percent := by decide
  rw [decode_other hpercent, if_pos rfl]

theorem decode_plain {c : UInt8} (hpercent : c ≠ percent) (hplus : c ≠ plus) (hhash : c ≠ hash) (hnul : c ≠ nul)
    (rest : Bytes) : decode (c :: rest) = (decode rest).map (c :: ·) := by
  rw [decode_other hpercent, if_neg hplus, if_neg hhash, if_neg hnul]

theorem decode_encodesByte {c : UInt8} {e : Bytes} (h : EncodesByte c e) (rest : Bytes) :
    decode (e ++ rest) = (decode rest).map (c :: ·) := by
  cases h with
  | unreserved h =>
    apply decode_plain <;> exact unreserved_ne h (by decide)
  | plus h =>
    rw [h]
    exact decode_plus rest
  | @escape hi lo h hhi hlo =>
    have hval : c.toNat / 16 * 16 + c.toNat % 16 = c.toNat := by omega
    calc decode (percent :: hi :: lo :: rest)
      _ = (decode rest).map (UInt8.ofNat (c.toNat / 16 * 16 + c.toNat % 16) :: ·) := decode_digits hhi hlo rest
      _ = (decode rest).map (c :: ·) := by rw [hval, UInt8.ofNat_toNat]

/-- Decoding undoes encoding. -/
theorem decode_encodes {value code : Bytes} (h : Encodes value code) : decode code = some value := by
  induction h with
  | nil => rfl
  | cons hc _ ih =>
    rw [decode_encodesByte hc, ih]
    rfl

theorem hexDigit_unreserved {n : Nat} {d : UInt8} (h : HexDigit n d) : Unreserved d := by
  unfold HexDigit at h
  unfold Unreserved
  omega

/-- No separator is left in an encoded value. -/
theorem encodes_plain {value code : Bytes} (h : Encodes value code) :
    ∀ d ∈ code, d = plus ∨ d = percent ∨ Unreserved d := by
  induction h with
  | nil =>
    intro d hd
    exact absurd hd List.not_mem_nil
  | cons hc _ ih =>
    intro d hd
    rcases List.mem_append.mp hd with hd | hd
    · cases hc with
      | unreserved hc => exact Or.inr (Or.inr (List.mem_singleton.mp hd ▸ hc))
      | plus hc => exact Or.inl (List.mem_singleton.mp hd)
      | escape hc hhi hlo =>
        simp only [List.mem_cons, List.not_mem_nil, or_false] at hd
        rcases hd with hd | hd | hd
        · exact Or.inr (Or.inl hd)
        · exact Or.inr (Or.inr (hd ▸ hexDigit_unreserved hhi))
        · exact Or.inr (Or.inr (hd ▸ hexDigit_unreserved hlo))
    · exact ih d hd

theorem encodes_notMem {value code : Bytes} (h : Encodes value code) {d : UInt8} (hplus : d ≠ plus)
    (hpercent : d ≠ percent) (hd : ¬ Unreserved d) : d ∉ code := by
  intro hm
  rcases encodes_plain h d hm with h | h | h
  · exact hplus h
  · exact hpercent h
  · exact hd h

theorem encodes_ne_nil {value code : Bytes} (h : Encodes value code) (hne : value ≠ []) : code ≠ [] := by
  cases h with
  | nil => exact absurd rfl hne
  | cons hc _ => cases hc <;> exact List.cons_ne_nil _ _

/-! Forms. -/

theorem FormPair.field (pair : FormPair) : field pair.text = some (pair.key, pair.value) := by
  have hplain : equalsSign ∉ pair.code :=
    encodes_notMem pair.encodes (by decide) (by decide) (by decide)
  have hne : ¬ (pair.key = [] ∨ pair.code = []) := by
    intro h
    exact h.elim pair.key_ne (encodes_ne_nil pair.encodes pair.value_ne)
  rw [Httpp.field, FormPair.text, splitLast_append hplain]
  simp only [if_neg hne, decode_encodes pair.encodes, Option.map_some, cString_of_plain pair.key_nul,
    cString_of_plain pair.value_nul]

theorem FormPair.text_ampersand (pair : FormPair) : ampersand ∉ pair.text := by
  have hplain : ampersand ∉ pair.code :=
    encodes_notMem pair.encodes (by decide) (by decide) (by decide)
  have hne : ampersand ≠ equalsSign := by decide
  simp only [FormPair.text, List.mem_append, List.mem_cons, not_or]
  exact ⟨pair.key_ampersand, hne, hplain⟩

/-- A form gives its own names and values. -/
theorem fields_formText (pairs : List FormPair) :
    fields (formText pairs) = pairs.map fun pair => (pair.key, pair.value) := by
  by_cases hne : pairs = []
  · rw [hne]
    rfl
  · have hplain : ∀ e ∈ pairs.map FormPair.text, ampersand ∉ e := by
      intro e he
      obtain ⟨pair, _, rfl⟩ := List.mem_map.mp he
      exact pair.text_ampersand
    have htexts : pairs.map FormPair.text ≠ [] := fun h => hne (List.map_eq_nil_iff.mp h)
    rw [formText, fields_intercalate htexts hplain, List.filterMap_map]
    have hfield : (Httpp.field ∘ FormPair.text) = some ∘ fun pair => (pair.key, pair.value) :=
      funext FormPair.field
    rw [hfield, List.filterMap_eq_map]

theorem formText_head (pairs : List FormPair) (rest : Bytes) :
    (formText pairs ++ rest).head? = some nul → pairs = [] := by
  intro h
  cases pairs with
  | nil => rfl
  | cons pair pairs =>
    obtain ⟨c, key, hkey⟩ := List.exists_cons_of_ne_nil pair.key_ne
    have hhead : (formText (pair :: pairs) ++ rest).head? = some c := by
      cases pairs with
      | nil => simp [formText, FormPair.text, hkey]
      | cons p ps => simp [formText, FormPair.text, hkey, List.intercalate_cons_cons]
    rw [hhead] at h
    have hnul := pair.key_nul
    rw [hkey, Option.some.inj h] at hnul
    exact absurd List.mem_cons_self hnul

/-- Parsing an encoded form adds to every name the values paired with it, in order, and
nothing else. The form may be part of a longer string. -/
theorem form_round_trip (pairs : List FormPair) (rest : Bytes) (hne : formText pairs ++ rest ≠ [])
    {mem : VarHeap} {tree : Tree} {vs : List VarPtr} {m : Entries} (H : Holds mem tree vs m) :
    ∃ mem' tree' vs' m', parseQuery mem tree (some (formText pairs ++ rest)) (formText pairs).length =
        some (mem', tree') ∧ Holds mem' tree' vs' m' ∧ Frame mem mem' vs vs' ∧
      ∀ name, m' name = m name ++ (pairs.filter fun pair => pair.key = name).map FormPair.value := by
  have hlen : (formText pairs).length ≤ (formText pairs ++ rest).length := by
    rw [List.length_append]
    exact Nat.le_add_right _ _
  obtain ⟨mem', tree', vs', e, H', F⟩ := parseQuery_spec H hlen hne
  refine ⟨mem', tree', vs', _, e, H', F, ?_⟩
  intro name
  have hfields : (if (formText pairs ++ rest).head? = some nul then []
      else fields ((formText pairs ++ rest).take (formText pairs).length)) =
      pairs.map fun pair => (pair.key, pair.value) := by
    rw [List.take_left, fields_formText]
    split
    · next h =>
      rw [formText_head pairs rest h]
      rfl
    · rfl
  rw [hfields, addFields_apply, List.filter_map, List.map_map]
  rfl

/-- The form `a=+%2b`. -/
def spaceAndPlus : FormPair where
  key := [97]
  value := [space, plus]
  code := [plus, percent, 50, 98]
  key_ne := by decide
  key_ampersand := by decide
  key_equals := by decide
  key_nul := by decide
  value_ne := by decide
  value_nul := by decide
  encodes := .cons (.plus rfl) (.cons (.escape (by decide) (Or.inl (by decide))
    (Or.inr (by decide))) .nil)

/-- The pair `a=b`. -/
def keyAValueB : FormPair where
  key := [97]
  value := [98]
  code := [98]
  key_ne := by decide
  key_ampersand := by decide
  key_equals := by decide
  key_nul := by decide
  value_ne := by decide
  value_nul := by decide
  encodes := .cons (.unreserved (by decide)) .nil

/-- The form `a=+%2b&c=b&a=b`: the name `a` has two values. -/
theorem form_round_trip_three : ∃ tree mem' tree' vs' m', avlTreeNew true true compareVars = some tree ∧
    parseQuery VarHeap.empty tree (some [97, 61, 43, 37, 50, 98, 38, 99, 61, 98, 38, 97, 61, 98]) 14 =
      some (mem', tree') ∧
    Holds mem' tree' vs' m' ∧ m' [97] = [[space, plus], [98]] ∧ m' [99] = [[98]] ∧ m' [98] = [] := by
  obtain ⟨tree, e, H⟩ := holds_new
  let keyC : FormPair := { keyAValueB with
    key := [99], key_ne := by decide, key_ampersand := by decide, key_equals := by decide, key_nul := by decide }
  obtain ⟨mem', tree', vs', m', e', H', _, hm'⟩ :=
    form_round_trip [spaceAndPlus, keyC, keyAValueB] [] (by decide) (H VarHeap.empty)
  exact ⟨tree, mem', tree', vs', m', e, e', H', hm' [97], hm' [99], hm' [98]⟩

end IcecastCommon.Httpp
