import IcecastCommon.Encoding.Extensions

/- The extension parser on its own input: which bytes it inspects, and what it makes of the
   extensions of the grammar. Its third loop looks for the end of a value behind the value,
   so both depend on what follows there. -/
namespace IcecastCommon.Encoding

/-! Steps of the parser. -/

theorem measureValue_le (q : Nat) (p : Bytes) : measureValue q p ≤ p.length := by
  induction p generalizing q with
  | nil => exact Nat.le_refl 0
  | cons c p ih =>
    have hone := ih 1
    have hzero := ih 0
    have htwo (q' : Nat) := ih q'
    rw [measureValue, List.length_cons]
    dsimp only
    split_ifs
    all_goals first | omega | exact Nat.succ_le_succ (htwo _)

/-- An extension that has something behind its `=`, and the rest of them; `y` is the memory
behind the extensions. -/
theorem readExtentions_value {key p : Bytes} (hkey : equals ∉ key) (hp : p ≠ []) (y : Bytes) (fuel : Nat) :
    readExtentions (fuel + 1) (semicolon :: (key ++ equals :: p) ++ y) (semicolon :: (key ++ equals :: p)).length =
      (decodeValue (p.drop (measureValue 0 p) ++ y) 0 (p.take (measureValue 0 p))).bind fun value =>
        (readExtentions fuel (p.drop (measureValue 0 p) ++ y) (p.drop (measureValue 0 p)).length).map fun next =>
          ⟨some key, some value, value.length⟩ :: next := by
  have hle := measureValue_le 0 p
  have hshape : semicolon :: (key ++ equals :: p) ++ y = semicolon :: (key ++ equals :: (p ++ y)) := by
    rw [List.cons_append, List.append_assoc, List.cons_append]
  have hlen : (semicolon :: (key ++ equals :: p)).length = key.length + p.length + 2 := by
    rw [List.length_cons, List.length_append, List.length_cons]
    omega
  rw [hshape, hlen, readExtentions_step hkey _ (List.length_pos_iff.mpr hp), List.take_left,
    List.take_append_of_le_length hle, List.drop_append_of_le_length hle, List.length_drop]

/-- An extension that ends the input with its `=`. -/
theorem readExtentions_noValue {key : Bytes} (hkey : equals ∉ key) (y : Bytes) (fuel : Nat) :
    readExtentions (fuel + 1) (semicolon :: (key ++ [equals]) ++ y) (key.length + 2) =
      some [⟨some key, none, 0⟩] := by
  have hkeyLen : ((key ++ [equals] ++ y).take (key.length + 1)).takeWhile (fun c => decide (c ≠ equals)) = key := by
    rw [List.append_assoc, List.take_length_add_append]
    exact takeWhile_equals hkey _
  rw [List.cons_append, readExtentions, if_neg (by omega)]
  simp only [ne_eq, not_true_eq_false, if_false, Nat.add_succ_sub_one, hkeyLen]
  rw [if_pos (by omega), List.append_assoc, List.take_left]

/-! The bytes it inspects. -/

/-- The parser comes to the value `v` of `s`, with the bytes `y` behind it. -/
inductive ValueAt : Bytes → Bytes → Bytes → Prop where
  | here {key p : Bytes} (hkey : equals ∉ key) (hp : p ≠ []) :
      ValueAt (semicolon :: (key ++ equals :: p)) (p.take (measureValue 0 p)) (p.drop (measureValue 0 p))
  | later {key p v y : Bytes} (hkey : equals ∉ key) (hp : p ≠ [])
      (h : ValueAt (p.drop (measureValue 0 p)) v y) : ValueAt (semicolon :: (key ++ equals :: p)) v y

/-- No byte is inspected outside the `len` bytes: with these alone as the memory the parser
does not fault. -/
def ReadsInput (s : Bytes) : Prop := readExtentions (s.length + 1) s s.length ≠ none

/-- A value that is not quoted has more bytes behind it than it has itself. -/
def Outlasted (v y : Bytes) : Prop := v ≠ [] → v.head? ≠ some quote → v.length < y.length

/-- In quotes nothing behind the value is looked at. -/
theorem decodeValue_inQuotes (p : Bytes) {q : Nat} (hq : q ≠ 0) (v : Bytes) : decodeValue p q v ≠ none := by
  induction v generalizing q with
  | nil => exact Option.some_ne_none _
  | cons c cs ih =>
    have bound (q' : Nat) (hq' : q' ≠ 0) (d : UInt8) :
        (decodeValue p q' cs).bind (fun w => some (d :: w)) ≠ none := by
      obtain ⟨w, hw⟩ := Option.ne_none_iff_exists'.mp (ih hq')
      rw [hw]
      exact Option.some_ne_none _
    rw [decodeValue, if_pos hq]
    by_cases hb : c = backslash
    · rw [if_pos hb]
      exact ih (by decide)
    · rw [if_neg hb]
      by_cases hquote : c = quote
      · rw [if_pos hquote]
        by_cases hone : q - 1 ≠ 0
        · rw [if_pos hone]
          exact bound _ hone _
        · rw [if_neg hone]
          exact Option.some_ne_none _
      · rw [if_neg hquote]
        exact bound _ hq _

theorem decodeValue_short {p v : Bytes} (h : v.length < p.length) : decodeValue p 0 v ≠ none := by
  induction v with
  | nil => exact Option.some_ne_none _
  | cons c cs ih =>
    rw [decodeValue, if_neg (not_not.mpr rfl)]
    rw [List.length_cons] at h
    by_cases hquote : c = quote
    · rw [if_pos hquote]
      exact decodeValue_inQuotes p (by decide) cs
    · rw [if_neg hquote, List.getElem?_eq_getElem h]
      dsimp only
      split_ifs
      · exact Option.some_ne_none _
      · obtain ⟨w, hw⟩ := Option.ne_none_iff_exists'.mp (ih (by omega))
        rw [hw]
        exact Option.some_ne_none _

/-- The decoding of a value stays inside exactly when the value is outlasted. -/
theorem decodeValue_inside (v y : Bytes) : decodeValue y 0 v ≠ none ↔ Outlasted v y := by
  constructor
  · intro h hne hquote
    by_contra hle
    cases v with
    | nil => exact hne rfl
    | cons c cs =>
      have hc : c ≠ quote := fun e => hquote (e ▸ rfl)
      rw [List.length_cons, Nat.not_lt] at hle
      apply h
      rw [decodeValue, if_neg (not_not.mpr rfl), if_neg hc, List.getElem?_eq_none hle]
  · intro h
    cases v with
    | nil => exact Option.some_ne_none _
    | cons c cs =>
      by_cases hc : c = quote
      · rw [decodeValue, if_neg (not_not.mpr rfl), if_pos hc]
        exact decodeValue_inQuotes y (by decide) cs
      · exact decodeValue_short (h (List.cons_ne_nil _ _) fun e => hc (Option.some.inj e))

theorem ValueAt.inv {key p v y : Bytes} (hkey : equals ∉ key)
    (h : ValueAt (semicolon :: (key ++ equals :: p)) v y) :
    v = p.take (measureValue 0 p) ∧ y = p.drop (measureValue 0 p) ∨ ValueAt (p.drop (measureValue 0 p)) v y := by
  generalize hs : semicolon :: (key ++ equals :: p) = s at h
  have split {key' p' : Bytes} (hkey' : equals ∉ key')
      (heq : semicolon :: (key ++ equals :: p) = semicolon :: (key' ++ equals :: p')) : p' = p := by
    have htail := (List.cons.inj heq).2
    -- the key ends at the first `=` in both
    have hkeys : key = key' := by
      rw [← takeWhile_equals hkey p, htail, takeWhile_equals hkey' p']
    rw [hkeys] at htail
    exact (List.cons.inj (List.append_cancel_left htail)).2.symm
  cases h with
  | here hkey' hp' =>
    rw [split hkey' hs]
    exact Or.inl ⟨rfl, rfl⟩
  | later hkey' hp' h =>
    rw [split hkey' hs] at h
    exact Or.inr h

/-- The ways an input can go on. -/
theorem input_cases (s : Bytes) :
    s = [] ∨ (∃ c t, s = c :: t ∧ c ≠ semicolon) ∨ (∃ key, s = semicolon :: key ∧ equals ∉ key) ∨
      (∃ key, s = semicolon :: (key ++ [equals]) ∧ equals ∉ key) ∨
      ∃ key p, s = semicolon :: (key ++ equals :: p) ∧ equals ∉ key ∧ p ≠ [] := by
  cases s with
  | nil => exact Or.inl rfl
  | cons c t =>
    by_cases hc : c = semicolon
    · rw [hc]
      by_cases hmem : equals ∈ t
      · obtain ⟨key, p, rfl, hkey⟩ := List.eq_append_cons_of_mem hmem
        cases p with
        | nil => exact Or.inr (Or.inr (Or.inr (Or.inl ⟨key, rfl, hkey⟩)))
        | cons d p => exact Or.inr (Or.inr (Or.inr (Or.inr ⟨key, d :: p, rfl, hkey, List.cons_ne_nil _ _⟩)))
      · exact Or.inr (Or.inr (Or.inl ⟨t, rfl, hmem⟩))
    · exact Or.inr (Or.inl ⟨c, t, rfl, hc⟩)

theorem readExtentions_inside (fuel : Nat) {s : Bytes} (hfuel : s.length < fuel) :
    readExtentions fuel s s.length ≠ none ↔ ∀ v y, ValueAt s v y → Outlasted v y := by
  induction fuel generalizing s with
  | zero => exact absurd hfuel (Nat.not_lt_zero _)
  | succ fuel ih =>
    -- on the fuel; only an extension with a value looks at what is behind it
    rcases input_cases s with rfl | ⟨c, t, rfl, hc⟩ | ⟨key, rfl, hkey⟩ | ⟨key, rfl, hkey⟩ | ⟨key, p, rfl, hkey, hp⟩
    · constructor
      · intro _ v y h
        cases h
      · intro _
        exact Option.some_ne_none _
    · constructor
      · intro _ v y h
        cases h
        all_goals exact absurd rfl hc
      · intro _
        rw [readExtentions, if_neg (by rw [List.length_cons]; omega)]
        dsimp only
        rw [if_pos hc]
        exact Option.some_ne_none _
    · constructor
      · intro _ v y h
        cases h
        all_goals exact absurd (List.mem_append_right _ List.mem_cons_self) hkey
      · intro _
        have hread := readExtentions_key hkey fuel []
        rw [List.append_nil] at hread
        rw [List.length_cons, hread]
        exact Option.some_ne_none _
    · constructor
      · intro _ v y h
        rcases h.inv hkey with ⟨rfl, rfl⟩ | h
        · exact fun hne => absurd rfl hne
        · cases h
      · intro _
        have hread := readExtentions_noValue hkey [] fuel
        rw [List.append_nil] at hread
        rw [List.length_cons, List.length_append, List.length_singleton, hread]
        exact Option.some_ne_none _
    · have hread := readExtentions_value hkey hp [] fuel
      rw [List.append_nil, List.append_nil] at hread
      have hshort : (p.drop (measureValue 0 p)).length < fuel := by
        rw [List.length_cons, List.length_append, List.length_cons] at hfuel
        rw [List.length_drop]
        omega
      rw [hread]
      constructor
      · intro h v y hvalue
        obtain ⟨r, hr⟩ := Option.ne_none_iff_exists'.mp h
        obtain ⟨value, hdecode, hr⟩ := Option.bind_eq_some_iff.mp hr
        obtain ⟨next, hnext, _⟩ := Option.map_eq_some_iff.mp hr
        rcases hvalue.inv hkey with ⟨rfl, rfl⟩ | hvalue
        · apply (decodeValue_inside _ _).mp
          rw [hdecode]
          exact Option.some_ne_none _
        · refine (ih hshort).mp ?_ v y hvalue
          rw [hnext]
          exact Option.some_ne_none _
      · intro h
        obtain ⟨value, hdecode⟩ := Option.ne_none_iff_exists'.mp
          ((decodeValue_inside _ _).mpr (h _ _ (ValueAt.here hkey hp)))
        obtain ⟨next, hnext⟩ := Option.ne_none_iff_exists'.mp
          ((ih hshort).mpr fun v y hvalue => h v y (ValueAt.later hkey hp hvalue))
        rw [hdecode, Option.bind_some, hnext]
        exact Option.some_ne_none _

/-- The parser stays inside its input exactly when every value it comes to that is not
quoted has more bytes behind it than it has itself. -/
theorem parser_inside (s : Bytes) : ReadsInput s ↔ ∀ v y, ValueAt s v y → Outlasted v y :=
  readExtentions_inside (s.length + 1) (Nat.lt_succ_self _)

/-- `;a=b`: the byte behind the value is inspected. -/
theorem parser_outside : ¬ ReadsInput [59, 97, 61, 98] := by
  unfold ReadsInput
  decide

/-! The extensions of the grammar. -/

/-- What stands behind a token: nothing, a token, or a string in quotes. -/
inductive ExtValue where
  | absent
  | token (t : Bytes) (nonempty : t ≠ []) (free : ∀ c ∈ t, IsToken c)
  | string (v : Bytes) (noBackslash : backslash ∉ v)

/-- `;` TOKEN [`=` (TOKEN | quoted STRING)]. -/
structure Ext where
  key : Bytes
  value : ExtValue
  keyNonempty : key ≠ []
  keyToken : ∀ c ∈ key, IsToken c

/-- The text of an extension; in a string a quote is written with a backslash. -/
def Ext.text (e : Ext) : Bytes :=
  match e.value with
  | .absent => semicolon :: e.key
  | .token t _ _ => semicolon :: (e.key ++ equals :: t)
  | .string v _ => semicolon :: (e.key ++ equals :: quote :: (escapeValue v ++ [quote]))

/-- The entry that stands for an extension. -/
def Ext.entry (e : Ext) : HttppMeta :=
  match e.value with
  | .absent => ⟨some e.key, none, 0⟩
  | .token t _ _ => ⟨some e.key, some t, t.length⟩
  | .string v _ => ⟨some e.key, some v, v.length⟩

def extTexts (es : List Ext) : Bytes := es.flatMap Ext.text

/-- The bytes 1 to `n` of `z` are there, and none is a semicolon. -/
def NoSemicolon (n : Nat) (z : Bytes) : Prop := ∀ k, 1 ≤ k → k ≤ n → ∃ c, z[k]? = some c ∧ c ≠ semicolon

/-- Only the last extension is without a value, and behind every token value there are, one
byte further, as many bytes without a semicolon. -/
def Understood : List Ext → Bytes → Prop
  | [], _ => True
  | e :: es, y =>
    (match e.value with
      | .absent => es = []
      | .token t _ _ => NoSemicolon t.length (extTexts es ++ y)
      | .string _ _ => True) ∧ Understood es y

/-- The decoding of a token. -/
theorem decodeValue_token {t : Bytes} (ht : ∀ c ∈ t, IsToken c) (z : Bytes) :
    decodeValue z 0 t = some t ↔ NoSemicolon t.length z := by
  induction t with
  | nil =>
    constructor
    · intro _ k hone hle
      rw [List.length_nil] at hle
      omega
    · intro _
      rfl
  | cons c t ih =>
    have hquote : c ≠ quote := (ht c List.mem_cons_self).2.2.1
    have ih := ih fun d hd => ht d (List.mem_cons_of_mem _ hd)
    rw [decodeValue, if_neg (not_not.mpr rfl), if_neg hquote]
    constructor
    · intro h
      cases hget : z[t.length + 1]? with
      | none =>
        rw [hget] at h
        cases h
      | some x =>
        simp only [hget] at h
        by_cases hx : x = semicolon
        · rw [if_pos hx] at h
          cases h
        · rw [if_neg hx] at h
          obtain ⟨w, hw, heq⟩ := Option.bind_eq_some_iff.mp h
          rw [(List.cons.inj (Option.some.inj heq)).2] at hw
          have hrest := ih.mp hw
          intro k hone hle
          rcases Nat.lt_or_eq_of_le hle with hlt | heq
          · exact hrest k hone (Nat.le_of_lt_succ hlt)
          · rw [heq]
            exact ⟨x, hget, hx⟩
    · intro h
      -- the byte looked at for `c` is as far behind the value as there are bytes from `c` on
      obtain ⟨x, hget, hx⟩ := h (t.length + 1) (Nat.succ_pos _) (Nat.le_refl _)
      have hrest := ih.mpr fun k hone hle => h k hone (Nat.le_succ_of_le hle)
      simp only [hget, if_neg hx, hrest]
      rfl

/-- A token value ends with the text, or at the next semicolon. -/
theorem measureValue_token {t : Bytes} (ht : ∀ c ∈ t, IsToken c) {z : Bytes} (hz : z.head? = none ∨ z.head? = some semicolon) :
    measureValue 0 (t ++ z) = t.length := by
  induction t with
  | nil =>
    cases z with
    | nil => rfl
    | cons c z =>
      have hc : c = semicolon := Option.some.inj (hz.resolve_left (Option.some_ne_none _))
      rw [hc]
      rfl
  | cons c t ih =>
    have hc := ht c List.mem_cons_self
    rw [List.cons_append, measureValue]
    simp only [ne_eq, not_true_eq_false, if_false, if_neg hc.2.2.1, if_neg hc.2.1, List.length_cons]
    rw [ih fun d hd => ht d (List.mem_cons_of_mem _ hd)]

theorem extTexts_head (es : List Ext) : (extTexts es).head? = none ∨ (extTexts es).head? = some semicolon := by
  cases es with
  | nil => exact Or.inl rfl
  | cons e es =>
    refine Or.inr ?_
    show (e.text ++ extTexts es).head? = some semicolon
    unfold Ext.text
    cases e.value <;> rfl

theorem Ext.equals_notMem_key (e : Ext) : equals ∉ e.key := fun h => (e.keyToken _ h).1 rfl

theorem Ext.semicolon_notMem_key (e : Ext) : semicolon ∉ e.key := fun h => (e.keyToken _ h).2.1 rfl

theorem Ext.text_cons (e : Ext) : ∃ w, e.text = semicolon :: w ∧ w ≠ [] := by
  unfold Ext.text
  cases e.value with
  | absent => exact ⟨e.key, rfl, e.keyNonempty⟩
  | token t _ _ => exact ⟨_, rfl, List.append_ne_nil_of_right_ne_nil _ (List.cons_ne_nil _ _)⟩
  | string v _ => exact ⟨_, rfl, List.append_ne_nil_of_right_ne_nil _ (List.cons_ne_nil _ _)⟩

/-- An extension with a value, when the parser finds the bytes `v` of the value as they are. -/
theorem readExtentions_next {key v rest y w : Bytes} (hkey : equals ∉ key) (hv : v ≠ [])
    (hmeasure : measureValue 0 (v ++ rest) = v.length) (fuel : Nat) {next : List HttppMeta} :
    readExtentions (fuel + 1) (semicolon :: (key ++ equals :: (v ++ rest)) ++ y)
          (semicolon :: (key ++ equals :: (v ++ rest))).length =
        some (⟨some key, some w, w.length⟩ :: next) ↔
      decodeValue (rest ++ y) 0 v = some w ∧ readExtentions fuel (rest ++ y) rest.length = some next := by
  rw [readExtentions_value hkey (List.append_ne_nil_of_left_ne_nil hv _), hmeasure, List.take_left, List.drop_left]
  constructor
  · intro h
    obtain ⟨value, hdecode, hr⟩ := Option.bind_eq_some_iff.mp h
    obtain ⟨ms, hnext, heq⟩ := Option.map_eq_some_iff.mp hr
    obtain ⟨hentry, rfl⟩ := List.cons.inj heq
    obtain rfl := Option.some.inj (HttppMeta.mk.inj hentry).2.1
    exact ⟨hdecode, hnext⟩
  · intro ⟨hdecode, hnext⟩
    rw [hdecode, hnext]
    rfl

theorem readExtentions_exts (fuel : Nat) {es : List Ext} (y : Bytes) (hfuel : (extTexts es).length < fuel) :
    readExtentions fuel (extTexts es ++ y) (extTexts es).length = some (es.map Ext.entry) ↔ Understood es y := by
  induction fuel generalizing es with
  | zero => exact absurd hfuel (Nat.not_lt_zero _)
  | succ fuel ih =>
    cases es with
    | nil => exact ⟨fun _ => True.intro, fun _ => rfl⟩
    | cons e es =>
      have hsplit : extTexts (e :: es) = e.text ++ extTexts es := rfl
      have hkey := e.equals_notMem_key
      rw [hsplit, List.length_append] at hfuel
      have hrest : (extTexts es).length < fuel := by
        obtain ⟨w, hw, _⟩ := e.text_cons
        rw [hw, List.length_cons] at hfuel
        omega
      rw [hsplit, Understood, List.map_cons]
      cases hvalue : e.value with
      | absent =>
        have htext : e.text = semicolon :: e.key := by rw [Ext.text, hvalue]
        have hentry : e.entry = ⟨some e.key, none, 0⟩ := by rw [Ext.entry, hvalue]
        rw [htext, hentry]
        cases es with
        | nil =>
          have hread := readExtentions_key hkey fuel y
          rw [show extTexts [] = [] from rfl, List.append_nil, List.length_cons, hread]
          exact ⟨fun _ => ⟨rfl, True.intro⟩, fun _ => rfl⟩
        | cons d ds =>
          -- the key swallows the next extension
          obtain ⟨w, hw, hwne⟩ := d.text_cons
          have hnext : extTexts (d :: ds) = semicolon :: (w ++ extTexts ds) := by
            show d.text ++ extTexts ds = _
            rw [hw, List.cons_append]
          have hpos := List.length_pos_iff.mpr hwne
          constructor
          · intro h
            rw [hnext, List.cons_append, List.cons_append, List.append_assoc, List.cons_append] at h
            obtain ⟨k, m, rest, hms, hmkey, hsemi⟩ := readExtentions_hidden e.keyToken (by
              rw [List.length_cons, List.length_append, List.length_cons, List.length_append]
              omega) h
            obtain ⟨hm, _⟩ := List.cons.inj hms
            rw [← hm] at hmkey
            rw [← Option.some.inj hmkey] at hsemi
            exact absurd hsemi e.semicolon_notMem_key
          · intro h
            cases h.1
      | token t nonempty free =>
        have hsplit : e.text ++ extTexts es = semicolon :: (e.key ++ equals :: (t ++ extTexts es)) := by
          rw [Ext.text, hvalue]
          simp only [List.cons_append, List.append_assoc]
        have hentry : e.entry = ⟨some e.key, some t, t.length⟩ := by rw [Ext.entry, hvalue]
        rw [hsplit, hentry, readExtentions_next hkey nonempty (measureValue_token free (extTexts_head es)),
          ih hrest, decodeValue_token free]
      | string v noBackslash =>
        have hsplit : e.text ++ extTexts es =
            semicolon :: (e.key ++ equals :: (quote :: (escapeValue v ++ [quote]) ++ extTexts es)) := by
          rw [Ext.text, hvalue]
          simp only [List.cons_append, List.append_assoc]
        have hentry : e.entry = ⟨some e.key, some v, v.length⟩ := by rw [Ext.entry, hvalue]
        have hmeasure : measureValue 0 (quote :: (escapeValue v ++ [quote]) ++ extTexts es) =
            (quote :: (escapeValue v ++ [quote])).length := by
          rw [List.cons_append, List.append_assoc]
          show measureValue 1 (escapeValue v ++ quote :: extTexts es) + 1 = _
          rw [measureValue_value noBackslash, List.length_cons, List.length_append, List.length_singleton]
        have hdecode (z : Bytes) : decodeValue z 0 (quote :: (escapeValue v ++ [quote])) = some v :=
          decodeValue_value noBackslash z
        rw [hsplit, hentry, readExtentions_next hkey (List.cons_ne_nil _ _) hmeasure, ih hrest, hdecode]
        exact Iff.and ⟨fun _ => True.intro, fun _ => rfl⟩ Iff.rfl

/-- The parser makes one entry of every extension exactly when it understands them; `y` is
what the memory has behind the extensions. -/
theorem parser_entries (es : List Ext) (self : HttppEncoding) (y : Bytes) :
    encChunkedReadExtentions self (extTexts es ++ y) (extTexts es).length =
        some { self with metaRead := self.metaRead ++ es.map Ext.entry } ↔ Understood es y := by
  rw [← readExtentions_exts ((extTexts es).length + 1) y (Nat.lt_succ_self _), encChunkedReadExtentions]
  constructor
  · intro h
    obtain ⟨metas, hread, heq⟩ := Option.bind_eq_some_iff.mp h
    have hmetas := congrArg HttppEncoding.metaRead (Option.some.inj heq)
    rw [hread, List.append_cancel_left hmetas]
  · intro h
    rw [h]
    rfl

/-- `;a;b`. -/
def twoKeys : List Ext :=
  [⟨[97], .absent, List.cons_ne_nil _ _, List.forall_mem_singleton.mpr (by decide)⟩,
    ⟨[98], .absent, List.cons_ne_nil _ _, List.forall_mem_singleton.mpr (by decide)⟩]

/-- The two extensions become one entry with the key `a;b`. -/
theorem parser_entries_swallowed :
    encChunkedReadExtentions (httppEncodingNew .chunked) (extTexts twoKeys ++ crlf) (extTexts twoKeys).length =
        some { httppEncodingNew .chunked with metaRead := [⟨some [97, 59, 98], none, 0⟩] } ∧
      encChunkedReadExtentions (httppEncodingNew .chunked) (extTexts twoKeys ++ crlf) (extTexts twoKeys).length ≠
        some { httppEncodingNew .chunked with metaRead := twoKeys.map Ext.entry } := by
  decide

end IcecastCommon.Encoding
