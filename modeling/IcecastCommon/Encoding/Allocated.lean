import IcecastCommon.Encoding.ExtensionParser
import IcecastCommon.Library.Cursor

/- The memory of `__enc_chunked_read_extentions`: the length that is left of the input, which
   is unsigned, and the keys and values that the parser allocates. The memory around the input
   holds anything, since the decoding loop looks behind the value. A length below zero and a
   write outside of an allocation are faults. Where the parser on lists has a result, the
   strings that are stored are those of its entries. -/
namespace IcecastCommon.Encoding
open Library

/-! The loops. -/

/-- The `n` bytes from `p` on. -/
def bytesAt (mem : Nat → UInt8) (p n : Nat) : Bytes := (List.range n).map fun i => mem (p + i)

/-- `a - b` for a `size_t` that must not wrap. -/
def minusSize (a b : Nat) : Option Nat := if b ≤ a then some (a - b) else none

/-- `for (key_len = 0; key_len < len && p[key_len] != '='; key_len++)` with `n` bytes left. -/
def keyLoop (mem : Nat → UInt8) (p : Nat) : Nat → Nat → Nat
  | 0, keyLen => keyLen
  | n + 1, keyLen => if mem (p + keyLen) ≠ equals then keyLoop mem p n (keyLen + 1) else keyLen

/-- The loop that measures a value, with `n` bytes left. -/
def measureLoop (mem : Nat → UInt8) (p : Nat) : Nat → Nat → Nat → Nat
  | 0, valueLen, _ => valueLen
  | n + 1, valueLen, inQuote =>
    let c := mem (p + valueLen)
    if inQuote ≠ 0 then
      let inQuote := if c = backslash then 2 else if c = quote then inQuote - 1 else inQuote
      if inQuote ≠ 0 then measureLoop mem p n (valueLen + 1) inQuote else valueLen + 1
    else if c = quote then measureLoop mem p n (valueLen + 1) 1
    else if c = semicolon then valueLen
    else measureLoop mem p n (valueLen + 1) 0

/-- The loop that decodes a value at `c`, with `value_len` bytes left; `p` is behind it. -/
def decodeLoop (mem : Nat → UInt8) (p : Nat) : Nat → Nat → Nat → Cursor UInt8 → Option (Cursor UInt8)
  | 0, _, _, value => some value
  | valueLen + 1, c, inQuote, value =>
    if inQuote ≠ 0 then
      if mem c = backslash then decodeLoop mem p valueLen (c + 1) 2 value
      else if mem c = quote then
        if inQuote - 1 ≠ 0 then do
          let value ← value.put quote
          decodeLoop mem p valueLen (c + 1) (inQuote - 1) value
        else some value
      else do
        let value ← value.put (mem c)
        decodeLoop mem p valueLen (c + 1) inQuote value
    else if mem c = quote then decodeLoop mem p valueLen (c + 1) 1 value
    else if mem (p + (valueLen + 1)) = semicolon then some value
    else do
      let value ← value.put (mem c)
      decodeLoop mem p valueLen (c + 1) 0 value

/-- `meta->key = malloc (key_len + 1)` and what is copied there. -/
def storeKey (mem : Nat → UInt8) (p keyLen : Nat) : Option (List (Option UInt8)) := do
  let key ← (Cursor.fresh none (keyLen + 1)).putAll (bytesAt mem p keyLen)
  let key ← key.put nul
  some key.mem

/-- `meta->value = malloc (value_len + 1)` and what is decoded there, with its length. -/
def storeValue (mem : Nat → UInt8) (p valueLen : Nat) : Option (List (Option UInt8) × Nat) := do
  let value ← decodeLoop mem (p + valueLen) valueLen p 0 (Cursor.fresh none (valueLen + 1))
  let ended ← value.put nul
  some (ended.mem, value.pos)

/-- An entry of `meta_read`, with the memory of its strings. -/
structure StoredMeta where
  key : List (Option UInt8)
  value : Option (List (Option UInt8))
  valueLen : Nat

/-- The loop of `__enc_chunked_read_extentions`. -/
def storeExtentions (mem : Nat → UInt8) : Nat → Nat → Nat → Option (List StoredMeta)
  | 0, _, _ => none
  | fuel + 1, p, len =>
    if len = 0 then some []
    else if mem p ≠ semicolon then some []
    else do
      let p := p + 1
      let len ← minusSize len 1
      let keyLen := keyLoop mem p len 0
      let key ← storeKey mem p keyLen
      let p := p + keyLen
      let len ← minusSize len keyLen
      if len = 0 then some [⟨key, none, 0⟩]
      else if mem p ≠ equals then do
        let next ← storeExtentions mem fuel p len
        some (⟨key, none, 0⟩ :: next)
      else do
        let p := p + 1
        let len ← minusSize len 1
        if len = 0 then some [⟨key, none, 0⟩]
        else do
          let valueLen := measureLoop mem p len 0 0
          let (value, decodedLen) ← storeValue mem p valueLen
          let len ← minusSize len valueLen
          let next ← storeExtentions mem fuel (p + valueLen) len
          some (⟨key, some value, decodedLen⟩ :: next)

/-! What the loops do. -/

/-- The bytes `s` stand at `p`. -/
def Stands (mem : Nat → UInt8) (p : Nat) (s : Bytes) : Prop := ∀ i c, s[i]? = some c → mem (p + i) = c

section
variable {mem : Nat → UInt8} {p : Nat}

theorem Stands.head {c : UInt8} {s : Bytes} (h : Stands mem p (c :: s)) : mem p = c := h 0 c rfl

theorem Stands.drop {s : Bytes} (h : Stands mem p s) (n : Nat) : Stands mem (p + n) (s.drop n) := by
  intro i c hc
  rw [List.getElem?_drop] at hc
  rw [Nat.add_assoc]
  exact h (n + i) c hc

theorem Stands.tail {c : UInt8} {s : Bytes} (h : Stands mem p (c :: s)) : Stands mem (p + 1) s := h.drop 1

theorem Stands.take {s : Bytes} (h : Stands mem p s) (n : Nat) : Stands mem p (s.take n) := by
  intro i c hc
  apply h i c
  by_cases hi : i < n
  · rwa [List.getElem?_take_of_lt hi] at hc
  · rw [List.getElem?_eq_none (by rw [List.length_take]; omega)] at hc
    cases hc

theorem bytesAt_length (mem : Nat → UInt8) (p n : Nat) : (bytesAt mem p n).length = n := by
  rw [bytesAt, List.length_map, List.length_range]

theorem bytesAt_stands (mem : Nat → UInt8) (p n : Nat) : Stands mem p (bytesAt mem p n) := by
  intro i c hc
  rw [bytesAt, List.getElem?_map, Option.map_eq_some_iff] at hc
  obtain ⟨j, hj, rfl⟩ := hc
  obtain ⟨hlt, rfl⟩ := List.getElem?_eq_some_iff.mp hj
  rw [List.getElem_range]

/-- The bytes at `p` are those that stand there. -/
theorem Stands.bytesAt {s : Bytes} (h : Stands mem p s) {n : Nat} (hn : n ≤ s.length) :
    bytesAt mem p n = s.take n := by
  have hlen : (Encoding.bytesAt mem p n).length = (s.take n).length := by
    rw [bytesAt_length, List.length_take_of_le hn]
  apply List.ext_getElem hlen
  intro i hi hi'
  have hget : s[i]? = some (s.take n)[i] := by
    rw [List.getElem_take, List.getElem?_eq_getElem]
  rw [← bytesAt_stands mem p n i _ (List.getElem?_eq_getElem hi), h i _ hget]

theorem keyLoop_eq {s : Bytes} {keyLen : Nat} (h : Stands mem (p + keyLen) s) :
    keyLoop mem p s.length keyLen = keyLen + (s.takeWhile (· ≠ equals)).length := by
  induction s generalizing keyLen with
  | nil => rfl
  | cons c s ih =>
    rw [List.length_cons, keyLoop, h.head]
    by_cases hc : c ≠ equals
    · rw [if_pos hc, ih h.tail, List.takeWhile_cons_of_pos (by simpa using hc), List.length_cons]
      omega
    · rw [if_neg hc, List.takeWhile_cons_of_neg (by simpa using hc)]
      rfl

theorem measureLoop_eq {s : Bytes} {valueLen inQuote : Nat} (h : Stands mem (p + valueLen) s) :
    measureLoop mem p s.length valueLen inQuote = valueLen + measureValue inQuote s := by
  induction s generalizing valueLen inQuote with
  | nil => rfl
  | cons c s ih =>
    have hnext : ∀ q, measureLoop mem p s.length (valueLen + 1) q = valueLen + (measureValue q s + 1) := by
      intro q
      rw [ih h.tail]
      omega
    rw [List.length_cons, measureLoop, measureValue, h.head]
    simp only [hnext]
    split_ifs <;> rfl

/-- A run of the decoding loop writes at most `n` bytes, and they are those that are decoded
where the bytes behind the value are known. -/
def Decodes (mem : Nat → UInt8) (p n : Nat) (done : Bytes) (rest : List (Option UInt8))
    (run : Option (Cursor UInt8)) (decoded : Bytes → Option Bytes) : Prop :=
  ∃ d : Bytes, run = some (Cursor.behind (done ++ d) (rest.drop d.length)) ∧ d.length ≤ n ∧
    ∀ y w, Stands mem p y → decoded y = some w → w = d

section
variable {n : Nat} {done : Bytes} {rest : List (Option UInt8)} {run : Option (Cursor UInt8)}
  {decoded : Bytes → Option Bytes}

theorem Decodes.longer (h : Decodes mem p n done rest run decoded) :
    Decodes mem p (n + 1) done rest run decoded := by
  obtain ⟨d, e, hle, heq⟩ := h
  exact ⟨d, e, Nat.le_succ_of_le hle, heq⟩

theorem decodes_nothing (mem : Nat → UInt8) (p n : Nat) (done : Bytes) (rest : List (Option UInt8))
    (h : ∀ y w, Stands mem p y → decoded y = some w → w = []) :
    Decodes mem p n done rest (some (Cursor.behind done rest)) decoded := by
  refine ⟨[], ?_, Nat.zero_le n, h⟩
  rw [List.append_nil]
  rfl

/-- One byte is written first. -/
theorem Decodes.put {b : UInt8} {next : Cursor UInt8 → Option (Cursor UInt8)} (hrest : 0 < rest.length)
    (h : Decodes mem p n (done ++ [b]) rest.tail (next (Cursor.behind (done ++ [b]) rest.tail)) decoded) :
    Decodes mem p (n + 1) done rest ((Cursor.behind done rest).put b >>= next)
      (fun y => do some (b :: (← decoded y))) := by
  obtain ⟨d, e, hle, heq⟩ := h
  refine ⟨b :: d, ?_, Nat.succ_le_succ hle, ?_⟩
  · rw [Cursor.put_behind hrest, Option.bind_eq_bind, Option.bind_some, e, List.append_assoc, List.length_cons,
      List.drop_tail]
    rfl
  · intro y w hy hw
    obtain ⟨w', hw', hcons⟩ := Option.bind_eq_some_iff.mp hw
    rw [← Option.some.inj hcons, heq y w' hy hw']

end

/-- What the decoding loop writes fits: every byte written is one that was read. -/
theorem decodeLoop_spec {cs : Bytes} {c inQuote : Nat} (h : Stands mem c cs) (done : Bytes)
    {rest : List (Option UInt8)} (hrest : cs.length < rest.length) :
    Decodes mem p cs.length done rest (decodeLoop mem p cs.length c inQuote (Cursor.behind done rest))
      (fun y => decodeValue y inQuote cs) := by
  -- on the bytes to decode; each of them leaves at least as much room as it takes
  induction cs generalizing c inQuote done rest with
  | nil =>
    apply decodes_nothing
    intro y w _ hw
    exact (Option.some.inj hw).symm
  | cons x cs ih =>
    rw [List.length_cons] at hrest
    have hpos : 0 < rest.length := Nat.lt_of_le_of_lt (Nat.zero_le _) hrest
    have hskip : ∀ q, Decodes mem p (cs.length + 1) done rest
        (decodeLoop mem p cs.length (c + 1) q (Cursor.behind done rest)) (fun y => decodeValue y q cs) :=
      fun q => (ih h.tail done (Nat.lt_of_succ_lt hrest)).longer
    have hput : ∀ q b, Decodes mem p (cs.length + 1) done rest
        ((Cursor.behind done rest).put b >>= decodeLoop mem p cs.length (c + 1) q)
        (fun y => do some (b :: (← decodeValue y q cs))) := by
      intro q b
      apply Decodes.put hpos
      apply ih h.tail
      rw [List.length_tail]
      omega
    have hstop : Decodes mem p (cs.length + 1) done rest (some (Cursor.behind done rest)) (fun _ => some []) := by
      apply decodes_nothing
      intro y w _ hw
      exact (Option.some.inj hw).symm
    rw [List.length_cons, decodeLoop, h.head]
    simp only [decodeValue]
    by_cases hin : inQuote ≠ 0
    · simp only [if_pos hin]
      by_cases hbackslash : x = backslash
      · simp only [if_pos hbackslash]
        exact hskip 2
      · simp only [if_neg hbackslash]
        by_cases hquote : x = quote
        · simp only [if_pos hquote]
          by_cases hone : inQuote - 1 ≠ 0
          · simp only [if_pos hone]
            exact hput _ _
          · simp only [if_neg hone]
            exact hstop
        · simp only [if_neg hquote]
          exact hput _ _
    · simp only [if_neg hin]
      by_cases hquote : x = quote
      · simp only [if_pos hquote]
        exact hskip 1
      · simp only [if_neg hquote]
        by_cases hsemicolon : mem (p + (cs.length + 1)) = semicolon
        · rw [if_pos hsemicolon]
          apply decodes_nothing
          intro y w hy hw
          cases hget : y[cs.length + 1]? with
          | none =>
            rw [hget] at hw
            cases hw
          | some d =>
            have hd : d = semicolon := by rw [← hy _ d hget, hsemicolon]
            simp only [hget, if_pos hd] at hw
            exact (Option.some.inj hw).symm
        · rw [if_neg hsemicolon]
          obtain ⟨d, e, hle, heq⟩ := hput 0 x
          refine ⟨d, e, hle, ?_⟩
          intro y w hy hw
          dsimp only at hw
          cases hget : y[cs.length + 1]? with
          | none =>
            rw [hget] at hw
            cases hw
          | some d =>
            have hd : d ≠ semicolon := by rwa [← hy _ d hget]
            simp only [hget, if_neg hd] at hw
            exact heq y w hy hw

end

/-! Keys and values. -/

/-- A string with its NUL in the memory allocated for it; what is behind it is not set. -/
def Fits (s : Bytes) (block : List (Option UInt8)) : Prop :=
  ∃ left, block = (s ++ [nul]).map some ++ List.replicate left none

theorem Fits.length_lt {s : Bytes} {block : List (Option UInt8)} (h : Fits s block) :
    s.length + 1 ≤ block.length := by
  obtain ⟨left, rfl⟩ := h
  rw [List.length_append, List.length_map, List.length_append, List.length_singleton]
  exact Nat.le_add_right _ _

theorem storeKey_spec (mem : Nat → UInt8) (p keyLen : Nat) :
    storeKey mem p keyLen = some ((bytesAt mem p keyLen ++ [nul]).map some) := by
  have hlen := bytesAt_length mem p keyLen
  have hlt : (bytesAt mem p keyLen).length < keyLen + 1 := Nat.lt_succ_of_le (Nat.le_of_eq hlen)
  obtain ⟨key, hkey, hnul⟩ := Cursor.putAll_put_fresh none hlt nul
  rw [storeKey]
  simp only [hkey, hnul, Option.bind_eq_bind, Option.bind_some]
  rw [hlen, Nat.sub_self, Cursor.behind, List.replicate_zero, List.append_nil]

/-- A value is decoded into the memory that was measured for it. -/
theorem storeValue_spec (mem : Nat → UInt8) (p valueLen : Nat) :
    ∃ d : Bytes, storeValue mem p valueLen =
        some ((d ++ [nul]).map some ++ List.replicate (valueLen - d.length) none, d.length) ∧
      d.length ≤ valueLen ∧
      ∀ y w, Stands mem (p + valueLen) y → decodeValue y 0 (bytesAt mem p valueLen) = some w → w = d := by
  have hlen := bytesAt_length mem p valueLen
  have hroom : (bytesAt mem p valueLen).length < (List.replicate (valueLen + 1) (none : Option UInt8)).length := by
    rw [hlen, List.length_replicate]
    exact Nat.lt_succ_self _
  obtain ⟨d, e, hle, heq⟩ := decodeLoop_spec (p := p + valueLen) (bytesAt_stands mem p valueLen) [] hroom
  rw [hlen] at e hle
  rw [← Cursor.fresh_eq] at e
  have hleft : 0 < ((List.replicate (valueLen + 1) (none : Option UInt8)).drop d.length).length := by
    rw [List.length_drop, List.length_replicate]
    omega
  refine ⟨d, ?_, hle, heq⟩
  rw [storeValue]
  simp only [e, Cursor.put_behind hleft, Option.bind_eq_bind, Option.bind_some, List.nil_append]
  rw [Cursor.behind, Cursor.behind, List.drop_replicate, List.tail_replicate, Nat.sub_right_comm, Nat.add_sub_cancel]

/-! The parser. -/

/-- The strings of an entry fit, and `value_len` is the length of what was decoded. -/
def StoredMeta.Sized (e : StoredMeta) : Prop :=
  (∃ key, Fits key e.key) ∧
    ∀ block, e.value = some block → ∃ value : Bytes, value.length = e.valueLen ∧ Fits value block

theorem minusSize_of_le {a b : Nat} (h : b ≤ a) : minusSize a b = some (a - b) := if_pos h

theorem keyLoop_le (mem : Nat → UInt8) (p len : Nat) : keyLoop mem p len 0 ≤ len := by
  have hstands : Stands mem (p + 0) (bytesAt mem p len) := bytesAt_stands mem p len
  have heq := keyLoop_eq hstands
  have hle := (List.takeWhile_sublist (fun c => decide (c ≠ equals)) (l := bytesAt mem p len)).length_le
  rw [bytesAt_length] at heq hle
  omega

theorem measureLoop_le (mem : Nat → UInt8) (p len : Nat) : measureLoop mem p len 0 0 ≤ len := by
  have hstands : Stands mem (p + 0) (bytesAt mem p len) := bytesAt_stands mem p len
  have heq : measureLoop mem p (bytesAt mem p len).length 0 0 = 0 + measureValue 0 (bytesAt mem p len) :=
    measureLoop_eq hstands
  have hle := measureValue_le 0 (bytesAt mem p len)
  rw [bytesAt_length] at heq hle
  omega

/-- An entry without a value. -/
theorem sized_key (key : Bytes) : (StoredMeta.mk ((key ++ [nul]).map some) none 0).Sized := by
  refine ⟨⟨key, 0, (List.append_nil _).symm⟩, ?_⟩
  intro block hblock
  cases hblock

/-- An entry with a value. -/
theorem sized_value (key value : Bytes) (left : Nat) :
    (StoredMeta.mk ((key ++ [nul]).map some) (some ((value ++ [nul]).map some ++ List.replicate left none))
      value.length).Sized := by
  refine ⟨⟨key, 0, (List.append_nil _).symm⟩, ?_⟩
  intro block hblock
  exact ⟨value, rfl, left, (Option.some.inj hblock).symm⟩

/-- The parser comes to an end, the length left of the input does not go below zero, and what
is stored fits. -/
theorem storeExtentions_sized (mem : Nat → UInt8) {fuel p len : Nat} (hfuel : len < fuel) :
    ∃ stored, storeExtentions mem fuel p len = some stored ∧ ∀ e ∈ stored, e.Sized := by
  -- on the fuel; an extension takes at least its semicolon off the length
  induction fuel generalizing p len with
  | zero => exact absurd hfuel (Nat.not_lt_zero _)
  | succ fuel ih =>
    rw [storeExtentions]
    by_cases hlen : len = 0
    · rw [if_pos hlen]
      exact ⟨[], rfl, List.forall_mem_nil _⟩
    · rw [if_neg hlen]
      by_cases hstart : mem p ≠ semicolon
      · rw [if_pos hstart]
        exact ⟨[], rfl, List.forall_mem_nil _⟩
      · have hone : minusSize len 1 = some (len - 1) := minusSize_of_le (Nat.one_le_iff_ne_zero.mpr hlen)
        have hkey := keyLoop_le mem (p + 1) (len - 1)
        simp only [if_neg hstart, hone, storeKey_spec, minusSize_of_le hkey, Option.bind_eq_bind, Option.bind_some]
        generalize keyLoop mem (p + 1) (len - 1) 0 = keyLen at hkey
        have hsized := sized_key (bytesAt mem (p + 1) keyLen)
        by_cases hkeyEnd : len - 1 - keyLen = 0
        · rw [if_pos hkeyEnd]
          exact ⟨_, rfl, List.forall_mem_singleton.mpr hsized⟩
        · rw [if_neg hkeyEnd]
          by_cases hnoValue : mem (p + 1 + keyLen) ≠ equals
          · have hless : len - 1 - keyLen < fuel := by omega
            obtain ⟨next, hnext, hall⟩ := ih (p := p + 1 + keyLen) hless
            rw [if_pos hnoValue, hnext]
            exact ⟨_, rfl, List.forall_mem_cons.mpr ⟨hsized, hall⟩⟩
          · have hequals : minusSize (len - 1 - keyLen) 1 = some (len - 1 - keyLen - 1) :=
              minusSize_of_le (Nat.one_le_iff_ne_zero.mpr hkeyEnd)
            rw [if_neg hnoValue, hequals, Option.bind_some]
            obtain ⟨left, hleft⟩ : ∃ left, len - 1 - keyLen - 1 = left := ⟨_, rfl⟩
            rw [hleft]
            by_cases hend : left = 0
            · rw [if_pos hend]
              exact ⟨_, rfl, List.forall_mem_singleton.mpr hsized⟩
            · have hvalue := measureLoop_le mem (p + 1 + keyLen + 1) left
              rw [if_neg hend]
              generalize measureLoop mem (p + 1 + keyLen + 1) left 0 0 = valueLen at hvalue
              obtain ⟨d, hd, _, _⟩ := storeValue_spec mem (p + 1 + keyLen + 1) valueLen
              have hless : left - valueLen < fuel := by omega
              obtain ⟨next, hnext, hall⟩ := ih (p := p + 1 + keyLen + 1 + valueLen) hless
              simp only [hd, minusSize_of_le hvalue, hnext, Option.bind_some]
              exact ⟨_, rfl, List.forall_mem_cons.mpr ⟨sized_value _ d _, hall⟩⟩

/-- For bytes of any kind and any length the parser ends, its length does not go below zero, and
every key and value has, with its NUL, at most the bytes that were allocated for it. -/
theorem extension_parser_sized (mem : Nat → UInt8) (len : Nat) :
    ∃ stored, storeExtentions mem (len + 1) 0 len = some stored ∧
      ∀ e ∈ stored, (∃ key, Fits key e.key ∧ key.length + 1 ≤ e.key.length) ∧
        ∀ block, e.value = some block →
          ∃ value, Fits value block ∧ value.length = e.valueLen ∧ e.valueLen + 1 ≤ block.length := by
  obtain ⟨stored, h, hall⟩ := storeExtentions_sized mem (Nat.lt_succ_self len) (p := 0)
  refine ⟨stored, h, ?_⟩
  intro e he
  obtain ⟨⟨key, hkey⟩, hvalue⟩ := hall e he
  refine ⟨⟨key, hkey, hkey.length_lt⟩, ?_⟩
  intro block hblock
  obtain ⟨value, hlen, hfits⟩ := hvalue block hblock
  exact ⟨value, hfits, hlen, hlen ▸ hfits.length_lt⟩

/-! The entries. -/

/-- A stored entry has the strings of an entry. -/
inductive Holds : StoredMeta → HttppMeta → Prop where
  | key {key : Bytes} {block : List (Option UInt8)} (hkey : Fits key block) :
      Holds ⟨block, none, 0⟩ ⟨some key, none, 0⟩
  | value {key value : Bytes} {keyBlock block : List (Option UInt8)} (hkey : Fits key keyBlock)
      (hvalue : Fits value block) : Holds ⟨keyBlock, some block, value.length⟩ ⟨some key, some value, value.length⟩

/-- Behind the key there is an `=`. -/
theorem equals_behind {s : Bytes} (h : (s.takeWhile (· ≠ equals)).length < s.length) :
    s[(s.takeWhile (· ≠ equals)).length]? = some equals := by
  have hsplit : s.takeWhile (· ≠ equals) ++ s.dropWhile (· ≠ equals) = s := List.takeWhile_append_dropWhile ..
  have hhead := List.head?_dropWhile_not (· ≠ equals) s
  cases hrest : s.dropWhile (· ≠ equals) with
  | nil =>
    rw [hrest, List.append_nil] at hsplit
    rw [hsplit] at h
    exact absurd h (Nat.lt_irrefl _)
  | cons c rest =>
    rw [hrest] at hhead hsplit
    have hc : c = equals := by simpa using hhead
    calc s[(s.takeWhile (· ≠ equals)).length]?
      _ = (s.takeWhile (· ≠ equals) ++ c :: rest)[(s.takeWhile (· ≠ equals)).length]? := by rw [hsplit]
      _ = some equals := by
        rw [List.getElem?_append_right (Nat.le_refl _), Nat.sub_self, List.getElem?_cons_zero, hc]

/-- The value that is measured in the `n` bytes at `p`, and what is stored for it. -/
theorem storeValue_holds {mem : Nat → UInt8} {p n : Nat} {s : Bytes} (h : Stands mem p s) (hn : n ≤ s.length) :
    measureLoop mem p n 0 0 = measureValue 0 (s.take n) ∧ measureValue 0 (s.take n) ≤ n ∧
      ∀ value, decodeValue (s.drop (measureValue 0 (s.take n))) 0 (s.take (measureValue 0 (s.take n))) = some value →
        ∃ block, storeValue mem p (measureValue 0 (s.take n)) = some (block, value.length) ∧ Fits value block := by
  have hstands : Stands mem (p + 0) (s.take n) := h.take n
  have hmeasure : measureLoop mem p (s.take n).length 0 0 = 0 + measureValue 0 (s.take n) := measureLoop_eq hstands
  have hle := measureValue_le 0 (s.take n)
  rw [List.length_take_of_le hn] at hmeasure hle
  rw [Nat.zero_add] at hmeasure
  refine ⟨hmeasure, hle, ?_⟩
  generalize measureValue 0 (s.take n) = valueLen at hle
  intro value hdecode
  obtain ⟨d, hd, _, heq⟩ := storeValue_spec mem p valueLen
  rw [h.bytesAt (Nat.le_trans hle hn)] at heq
  rw [heq _ value (h.drop valueLen) hdecode]
  exact ⟨_, hd, valueLen - d.length, rfl⟩

/-- Where the parser on lists has a result, its entries are stored. -/
theorem storeExtentions_holds {mem : Nat → UInt8} {fuel p len : Nat} {s : Bytes} {metas : List HttppMeta}
    (h : Stands mem p s) (hlen : len ≤ s.length) (hread : readExtentions fuel s len = some metas) :
    ∃ stored, storeExtentions mem fuel p len = some stored ∧ List.Forall₂ Holds stored metas := by
  induction fuel generalizing p len s metas with
  | zero => cases hread
  | succ fuel ih =>
    unfold readExtentions at hread
    rw [storeExtentions]
    by_cases hzero : len = 0
    · rw [if_pos hzero] at hread ⊢
      cases hread
      exact ⟨[], rfl, List.Forall₂.nil⟩
    · rw [if_neg hzero] at hread ⊢
      cases s with
      | nil => cases hread
      | cons c s =>
        rw [h.head]
        dsimp only at hread
        by_cases hstart : c ≠ semicolon
        · rw [if_pos hstart] at hread ⊢
          cases hread
          exact ⟨[], rfl, List.Forall₂.nil⟩
        · have htake : (s.take (len - 1)).length = len - 1 := by
            rw [List.length_cons] at hlen
            exact List.length_take_of_le (by omega)
          have hstands : Stands mem (p + 1 + 0) (s.take (len - 1)) := h.tail.take (len - 1)
          have hkeyLoop := keyLoop_eq hstands
          have hkeyLe := (List.takeWhile_sublist (fun c => decide (c ≠ equals)) (l := s.take (len - 1))).length_le
          have hequals := equals_behind (s := s.take (len - 1))
          rw [htake, Nat.zero_add] at hkeyLoop
          rw [htake] at hkeyLe hequals
          rw [if_neg hstart] at hread
          generalize ((s.take (len - 1)).takeWhile (· ≠ equals)).length = keyLen at hkeyLoop hkeyLe hequals hread
          have hone : minusSize len 1 = some (len - 1) := minusSize_of_le (Nat.one_le_iff_ne_zero.mpr hzero)
          have hbytes : bytesAt mem (p + 1) keyLen = s.take keyLen := h.tail.bytesAt (by
            rw [List.length_cons] at hlen
            omega)
          have hfits : Fits (s.take keyLen) ((s.take keyLen ++ [nul]).map some) := ⟨0, (List.append_nil _).symm⟩
          simp only [if_neg hstart, hone, hkeyLoop, storeKey_spec, hbytes, minusSize_of_le hkeyLe, Option.bind_eq_bind,
            Option.bind_some]
          by_cases hkeyEnd : len - 1 - keyLen = 0
          · rw [if_pos (Or.inl hkeyEnd)] at hread
            rw [if_pos hkeyEnd]
            cases hread
            exact ⟨_, rfl, List.Forall₂.cons (Holds.key hfits) List.Forall₂.nil⟩
          · have hget : mem (p + 1 + keyLen) = equals := h.tail.take (len - 1) keyLen equals (hequals (by omega))
            have hminus : minusSize (len - 1 - keyLen) 1 = some (len - 1 - keyLen - 1) :=
              minusSize_of_le (Nat.one_le_iff_ne_zero.mpr hkeyEnd)
            rw [if_neg hkeyEnd, if_neg (not_not.mpr hget), hminus, Option.bind_some]
            by_cases hend : len - 1 - keyLen - 1 = 0
            · rw [if_pos (Or.inr hend)] at hread
              rw [if_pos hend]
              cases hread
              exact ⟨_, rfl, List.Forall₂.cons (Holds.key hfits) List.Forall₂.nil⟩
            · rw [if_neg (not_or.mpr ⟨hkeyEnd, hend⟩)] at hread
              have hbehind : Stands mem (p + 1 + keyLen + 1) ((s.drop keyLen).drop 1) := (h.tail.drop keyLen).drop 1
              have hroom : len - 1 - keyLen - 1 ≤ ((s.drop keyLen).drop 1).length := by
                rw [List.length_cons] at hlen
                rw [List.length_drop, List.length_drop]
                omega
              generalize (s.drop keyLen).drop 1 = t at hbehind hroom hread
              rw [if_neg hend]
              generalize len - 1 - keyLen - 1 = n at hroom hread
              obtain ⟨hmeasure, hle, hstore⟩ := storeValue_holds hbehind hroom
              obtain ⟨value, hvalue, hread⟩ := Option.bind_eq_some_iff.mp hread
              obtain ⟨next, hnext, hmetas⟩ := Option.bind_eq_some_iff.mp hread
              obtain ⟨block, hblock, hfitsValue⟩ := hstore value hvalue
              have hrest : n - measureValue 0 (t.take n) ≤ (t.drop (measureValue 0 (t.take n))).length := by
                rw [List.length_drop]
                exact Nat.sub_le_sub_right hroom _
              obtain ⟨stored, hstored, hall⟩ := ih (hbehind.drop _) hrest hnext
              rw [hmeasure]
              simp only [hblock, minusSize_of_le hle, hstored, Option.bind_some]
              cases hmetas
              exact ⟨_, rfl, List.Forall₂.cons (Holds.value hfits hfitsValue) hall⟩

end IcecastCommon.Encoding
