import IcecastCommon.Encoding.Extensions
import IcecastCommon.Encoding.Reach

/- Chunk headers by the grammar, with quoted strings and quoted-pairs, against the quote
   counter of the header loop. The counter is 1 in a string and stays 2 behind a
   backslash until a quote comes, which then does not close the string. -/
namespace IcecastCommon.Encoding

/-! Headers. -/

/-- A CRLF in the bytes; `behindCR` says whether a CR stands in front of them. -/
def hasCrlf : Bool → Bytes → Bool
  | _, [] => false
  | behindCR, c :: t => (behindCR && c == lf) || hasCrlf (c == cr) t

/-- A part of a quoted string. -/
inductive Item where
  | plain (c : UInt8) (free : c ≠ quote ∧ c ≠ backslash)
  | pair (c : UInt8)
deriving DecidableEq

def Item.bytes : Item → Bytes
  | .plain c _ => [c]
  | .pair c => [backslash, c]

/-- A text outside quotes with the quoted string behind it. -/
structure Segment where
  text : Bytes
  items : List Item
  noQuote : quote ∉ text
  noCrlf : hasCrlf false text = false

def Segment.bytes (p : Segment) : Bytes := p.text ++ quote :: (p.items.flatMap Item.bytes ++ [quote])

/-- A header without its CRLF. -/
structure Header where
  size : Bytes
  segments : List Segment
  last : Bytes
  sizeNonempty : size ≠ []
  sizeHex : ∀ c ∈ size, IsHex c
  noQuote : quote ∉ last
  noCrlf : hasCrlf false last = false

def Header.bytes (h : Header) : Bytes := h.size ++ (h.segments.flatMap Segment.bytes ++ h.last)

/-- The loop ends the header at the first CRLF outside the quoted strings. -/
def EndsHeader (h : Header) (o : Nat) (rest : Bytes) : Prop :=
  (scanHeader o (h.bytes ++ crlf ++ rest) Scan.start).offsetCR = (o : Int) + h.bytes.length ∧
    (scanHeader o (h.bytes ++ crlf ++ rest) Scan.start).offsetLF = (o : Int) + h.bytes.length + 1

/-! When it does. -/

/-- The quote counter behind parts of a string. -/
def counter : Nat → List Item → Nat
  | q, [] => q
  | q, .plain _ _ :: items => counter q items
  | _, .pair c :: items => counter (if c = quote then 1 else 2) items

/-- The string has no quoted-pair, or the last of them is backslash-quote. -/
def Closed (items : List Item) : Prop := counter 1 items = 1

instance (items : List Item) : Decidable (Closed items) := inferInstanceAs (Decidable (_ = _))

/-- The bytes in front of the first backslash-quote, all bytes if there is none. -/
def frontBytes : List Item → Bytes
  | [] => []
  | .plain c _ :: items => c :: frontBytes items
  | .pair c :: items => if c = quote then [backslash] else backslash :: c :: frontBytes items

/-- Strings that are closed keep the loop in step. It is out of step behind one that is not
closed, as if the text outside were in quotes, and comes in step again behind a closed
string with a quoted-pair, or with a backslash in the text before it. -/
def InStep : Bool → List Segment → Prop
  | inStep, [] => inStep = true
  | true, p :: ps => InStep (decide (Closed p.items)) ps
  | false, p :: ps =>
    if backslash ∈ p.text then InStep (decide (Closed p.items)) ps
    else hasCrlf false (frontBytes p.items) = false ∧
      InStep (decide (Closed p.items ∧ .pair quote ∈ p.items)) ps

/-! The scanner along a header. -/

/-- The loop goes through the bytes without finding an end. -/
def Walks (i : Nat) (s : Scan) (xs : Bytes) (s' : Scan) : Prop :=
  ∀ ys, scanHeader i (xs ++ ys) s = scanHeader (i + xs.length) ys s'

theorem Walks.refl (i : Nat) (s : Scan) : Walks i s [] s := fun _ => rfl

theorem Walks.append {i : Nat} {s s' s'' : Scan} {xs zs : Bytes} (h : Walks i s xs s')
    (h' : Walks (i + xs.length) s' zs s'') : Walks i s (xs ++ zs) s'' := by
  intro ys
  rw [List.append_assoc, h, h', List.length_append, Nat.add_assoc]

theorem Walks.one {i : Nat} {s : Scan} {c : UInt8} (h : (s.next i c).offsetLF = -1) :
    Walks i s [c] (s.next i c) := fun _ => scanHeader_cons h

/-- The scanner with the quote counter `q`; the byte in front of `i` is no CR outside quotes. -/
structure Scan.At (s : Scan) (q i : Nat) : Prop where
  inQuote : s.inQuote = q
  noLF : s.offsetLF = -1
  noCR : s.offsetCR + 1 < i

section

variable {s : Scan} {q i : Nat}

/-- A byte in quotes. -/
theorem Scan.At.quoted (H : s.At q i) (hq : q ≠ 0) (c : UInt8) :
    ∃ s', Walks i s [c] s' ∧ s'.At (if c = backslash then 2 else if c = quote then q - 1 else q) (i + 1) := by
  have hnext := Scan.next_quoted (by rw [H.inQuote]; exact hq) i c
  refine ⟨s.next i c, Walks.one ?_, ?_, ?_, ?_⟩
  · rw [hnext]
    exact H.noLF
  · rw [hnext, H.inQuote]
  · rw [hnext]
    exact H.noLF
  · rw [hnext]
    have := H.noCR
    simp only
    omega

/-- The quote that opens a string. -/
theorem open_quote (hq : s.inQuote = 0) (hs : s.offsetLF = -1) (hcr : s.offsetCR < i) :
    ∃ s', Walks i s [quote] s' ∧ s'.At 1 (i + 1) := by
  have hnext : s.next i quote = { s with inQuote := 1 } := by
    unfold Scan.next
    rw [if_neg (not_not.mpr hq), if_pos rfl]
  refine ⟨s.next i quote, Walks.one ?_, ?_, ?_, ?_⟩
  · rw [hnext]
    exact hs
  · rw [hnext]
  · rw [hnext]
    exact hs
  · rw [hnext]
    simp only
    omega

theorem counter_cases {items : List Item} (hq : q = 1 ∨ q = 2) : counter q items = 1 ∨ counter q items = 2 := by
  induction items generalizing q with
  | nil => exact hq
  | cons item items ih =>
    cases item with
    | plain c free => exact ih hq
    | pair c =>
      rw [counter]
      split_ifs
      · exact ih (Or.inl rfl)
      · exact ih (Or.inr rfl)

/-- The parts of a string, in quotes. -/
theorem walks_items (items : List Item) (H : s.At q i) (hq : q = 1 ∨ q = 2) :
    ∃ s', Walks i s (items.flatMap Item.bytes) s' ∧
      s'.At (counter q items) (i + (items.flatMap Item.bytes).length) := by
  induction items generalizing s q i with
  | nil => exact ⟨s, Walks.refl i s, H⟩
  | cons item items ih =>
    rw [List.flatMap_cons, List.length_append, ← Nat.add_assoc]
    cases item with
    | plain c free =>
      obtain ⟨s₁, hwalk, H₁⟩ := H.quoted (by omega) c
      rw [if_neg free.2, if_neg free.1] at H₁
      obtain ⟨s₂, hwalk₂, H₂⟩ := ih H₁ hq
      exact ⟨s₂, hwalk.append hwalk₂, H₂⟩
    | pair c =>
      obtain ⟨s₁, hwalk, H₁⟩ := H.quoted (by omega) backslash
      rw [if_pos rfl] at H₁
      obtain ⟨s₂, hwalk₂, H₂⟩ := H₁.quoted (by decide) c
      have hq₂ : (if c = backslash then 2 else if c = quote then 2 - 1 else 2) = if c = quote then 1 else 2 := by
        by_cases hc : c = backslash
        · rw [if_pos hc, hc]
          rfl
        · rw [if_neg hc]
      rw [hq₂] at H₂
      obtain ⟨s₃, hwalk₃, H₃⟩ := ih H₂ (by split_ifs; exacts [Or.inl rfl, Or.inr rfl])
      exact ⟨s₃, (hwalk.append hwalk₂).append hwalk₃, H₃⟩

/-- A text without quotes, in quotes. -/
theorem walks_text {t : Bytes} (ht : quote ∉ t) (H : s.At q i) (hq : q = 1 ∨ q = 2) :
    ∃ s', Walks i s t s' ∧ s'.At (if backslash ∈ t then 2 else q) (i + t.length) := by
  induction t generalizing s q i with
  | nil => exact ⟨s, Walks.refl i s, by rw [if_neg List.not_mem_nil]; exact H⟩
  | cons c t ih =>
    obtain ⟨s₁, hwalk, H₁⟩ := H.quoted (by omega) c
    have hc : c ≠ quote := fun h => ht (h ▸ List.mem_cons_self)
    rw [if_neg hc] at H₁
    obtain ⟨s₂, hwalk₂, H₂⟩ := ih (fun h => ht (List.mem_cons_of_mem _ h)) H₁
      (by split_ifs; exacts [Or.inr rfl, hq])
    refine ⟨s₂, hwalk.append hwalk₂, ?_⟩
    have hcount : (if backslash ∈ t then 2 else if c = backslash then 2 else q) =
        if backslash ∈ c :: t then 2 else q := by
      by_cases hb : c = backslash
      · rw [hb, if_pos rfl, ite_self, if_pos List.mem_cons_self]
      · have hmem : backslash ∈ c :: t ↔ backslash ∈ t :=
          ⟨fun h => (List.mem_cons.mp h).resolve_left (Ne.symm hb), List.mem_cons_of_mem _⟩
        rw [if_neg hb, if_congr hmem rfl rfl]
    rw [hcount] at H₂
    rw [List.length_cons, ← Nat.add_assoc, Nat.add_right_comm]
    exact H₂

/-- A byte outside quotes, up to the LF of a CRLF. -/
theorem Scan.next_outside (hq : s.inQuote = 0) (hs : s.offsetLF = -1) (hcr : s.offsetCR < i) {c : UInt8}
    (hc : c ≠ quote) :
    (s.offsetCR = (i : Int) - 1 ∧ c = lf → (s.next i c).offsetLF = i) ∧
      (¬ (s.offsetCR = (i : Int) - 1 ∧ c = lf) → (s.next i c).inQuote = 0 ∧ (s.next i c).offsetLF = -1 ∧
        (s.next i c).offsetCR < i + 1 ∧ ((s.next i c).offsetCR = i ↔ c = cr)) := by
  unfold Scan.next
  rw [if_neg (not_not.mpr hq), if_neg hc]
  by_cases hcCR : c = cr
  · have hsemi : ¬ (c = semicolon ∧ s.offsetExtentions = -1) := fun h => absurd (hcCR.symm.trans h.1) (by decide)
    have hLF : c ≠ lf := fun h => absurd (hcCR.symm.trans h) (by decide)
    rw [if_neg hsemi, if_pos hcCR]
    refine ⟨fun h => absurd h.2 hLF, fun _ => ⟨hq, hs, ?_, ⟨fun _ => hcCR, fun _ => rfl⟩⟩⟩
    simp only
    omega
  · have hno : ¬ s.offsetCR = i := by omega
    by_cases hsemi : c = semicolon ∧ s.offsetExtentions = -1
    · have hLF : c ≠ lf := fun h => absurd (hsemi.1.symm.trans h) (by decide)
      rw [if_pos hsemi]
      refine ⟨fun h => absurd h.2 hLF, fun _ => ⟨hq, hs, ?_, ⟨fun h => absurd h hno, fun h => absurd h hcCR⟩⟩⟩
      simp only
      omega
    · rw [if_neg hsemi, if_neg hcCR]
      constructor
      · intro ⟨h, hLF⟩
        rw [if_pos ⟨hLF, h⟩]
      · intro h
        rw [if_neg fun hh => h ⟨hh.2, hh.1⟩]
        exact ⟨hq, hs, by omega, ⟨fun h => absurd h hno, fun h => absurd h hcCR⟩⟩

/-- A text without quotes, outside quotes: the loop goes through it, or it ends at a CRLF
in the text. -/
theorem scanHeader_text {t : Bytes} (ht : quote ∉ t) {behindCR : Bool} (hq : s.inQuote = 0)
    (hs : s.offsetLF = -1) (hcr : s.offsetCR < i) (hbehind : s.offsetCR = (i : Int) - 1 ↔ behindCR = true) :
    (hasCrlf behindCR t = false → ∃ s', Walks i s t s' ∧ s'.inQuote = 0 ∧ s'.offsetLF = -1 ∧
        s'.offsetCR < (i + t.length : Nat)) ∧
      (hasCrlf behindCR t = true → ∀ ys, (scanHeader i (t ++ ys) s).offsetLF ≠ -1 ∧
        (scanHeader i (t ++ ys) s).offsetLF < (i + t.length : Nat)) := by
  induction t generalizing s i behindCR with
  | nil =>
    constructor
    · intro _
      exact ⟨s, Walks.refl i s, hq, hs, hcr⟩
    · intro h
      cases h
  | cons c t ih =>
    have hc : c ≠ quote := fun h => ht (h ▸ List.mem_cons_self)
    obtain ⟨hend, hgo⟩ := Scan.next_outside hq hs hcr hc
    have hlen : i + (c :: t).length = i + 1 + t.length := by
      rw [List.length_cons]
      omega
    rw [hasCrlf, hlen]
    by_cases hlf : s.offsetCR = (i : Int) - 1 ∧ c = lf
    · have hLF := hend hlf
      rw [hbehind.mp hlf.1, hlf.2]
      constructor
      · intro h
        cases h
      · intro _ ys
        have hstop : scanHeader i (lf :: t ++ ys) s = s.next i lf := by
          rw [List.cons_append, scanHeader, if_pos]
          rw [← hlf.2, hLF]
          omega
        rw [hstop, ← hlf.2, hLF]
        omega
    · obtain ⟨hq', hs', hcr', hnew⟩ := hgo hlf
      have hfalse : (behindCR && c == lf) = false := by
        rw [Bool.and_eq_false_iff, beq_eq_false_iff_ne]
        by_cases hb : behindCR = true
        · exact Or.inr fun h => hlf ⟨hbehind.mpr hb, h⟩
        · exact Or.inl (Bool.eq_false_iff.mpr hb)
      rw [hfalse, Bool.false_or]
      have hbehind' : (s.next i c).offsetCR = ((i + 1 : Nat) : Int) - 1 ↔ (c == cr) = true := by
        rw [beq_iff_eq, ← hnew]
        omega
      obtain ⟨hwalks, hstops⟩ := ih (fun h => ht (List.mem_cons_of_mem _ h)) hq' hs' (by omega) hbehind'
      constructor
      · intro h
        obtain ⟨s', hwalk, h'⟩ := hwalks h
        exact ⟨s', (Walks.one hs').append hwalk, h'⟩
      · intro h ys
        rw [List.cons_append, scanHeader_cons hs']
        exact hstops h ys

/-- An end that is not yet found is found further on, or not at all. -/
theorem scanHeader_later (i : Nat) (xs : Bytes) (hs : s.offsetLF = -1) :
    (scanHeader i xs s).offsetLF = -1 ∨ (i : Int) ≤ (scanHeader i xs s).offsetLF := by
  induction xs generalizing i s with
  | nil => exact Or.inl hs
  | cons c cs ih =>
    rw [scanHeader]
    by_cases hc : (s.next i c).offsetLF ≠ -1
    · rw [if_pos hc]
      rcases s.next_offsetLF i c with h | h
      · exact Or.inl (h.trans hs)
      · exact Or.inr (by omega)
    · rw [if_neg hc]
      rcases ih (i := i + 1) (not_not.mp hc) with h | h
      · exact Or.inl h
      · exact Or.inr (by omega)

/-! Segments. -/

/-- From the quote that opens a string to the one that should close it. -/
theorem walks_string (items : List Item) (H : s.At 1 i) :
    ∃ s', Walks i s (items.flatMap Item.bytes ++ [quote]) s' ∧
      s'.At (if Closed items then 0 else 1) (i + (items.flatMap Item.bytes ++ [quote]).length) := by
  obtain ⟨s₁, hwalk, H₁⟩ := walks_items items H (Or.inl rfl)
  have hcases : counter 1 items = 1 ∨ counter 1 items = 2 := counter_cases (Or.inl rfl)
  obtain ⟨s₂, hwalk₂, H₂⟩ := H₁.quoted (by omega) quote
  refine ⟨s₂, hwalk.append hwalk₂, ?_⟩
  rw [if_neg (by decide), if_pos rfl] at H₂
  have hcount : counter 1 items - 1 = if Closed items then 0 else 1 := by
    by_cases hclosed : Closed items
    · rw [if_pos hclosed, show counter 1 items = 1 from hclosed]
    · rw [if_neg hclosed, hcases.resolve_left hclosed]
  rw [hcount] at H₂
  rw [List.length_append, ← Nat.add_assoc]
  exact H₂

theorem Scan.At.notBehindCR (H : s.At q i) : s.offsetCR < i ∧ (s.offsetCR = (i : Int) - 1 ↔ false = true) := by
  have hcr := H.noCR
  refine ⟨by omega, fun h => ?_, fun h => ?_⟩
  · omega
  · cases h

theorem Segment.length_bytes (p : Segment) (i : Nat) :
    i + p.bytes.length = i + p.text.length + 1 + (p.items.flatMap Item.bytes ++ [quote]).length := by
  rw [Segment.bytes, List.length_append, List.length_cons]
  omega

/-- In step the loop sees a segment as the grammar does, up to its last quote. -/
theorem segment_inStep (p : Segment) (H : s.At 0 i) :
    ∃ s', Walks i s p.bytes s' ∧ s'.At (if Closed p.items then 0 else 1) (i + p.bytes.length) := by
  obtain ⟨hcr, hbehind⟩ := H.notBehindCR
  obtain ⟨s₁, hwalk₁, hq₁, hs₁, hcr₁⟩ := (scanHeader_text p.noQuote H.inQuote H.noLF hcr hbehind).1 p.noCrlf
  obtain ⟨s₂, hwalk₂, H₂⟩ := open_quote hq₁ hs₁ hcr₁
  obtain ⟨s₃, hwalk₃, H₃⟩ := walks_string p.items H₂
  refine ⟨s₃, hwalk₁.append (hwalk₂.append hwalk₃), ?_⟩
  rw [p.length_bytes]
  exact H₃

theorem quote_notMem_frontBytes (items : List Item) : quote ∉ frontBytes items := by
  induction items with
  | nil => exact List.not_mem_nil
  | cons item items ih =>
    cases item with
    | plain c free => exact List.not_mem_cons_of_ne_of_not_mem (Ne.symm free.1) ih
    | pair c =>
      rw [frontBytes]
      split_ifs with hc
      · decide
      · exact List.not_mem_cons_of_ne_of_not_mem (by decide) (List.not_mem_cons_of_ne_of_not_mem (Ne.symm hc) ih)

/-- The first backslash-quote of a string. -/
theorem frontBytes_split {items : List Item} (h : .pair quote ∈ items) :
    ∃ more, items.flatMap Item.bytes = frontBytes items ++ quote :: more.flatMap Item.bytes ∧
      ∀ q, counter q items = counter 1 more := by
  induction items with
  | nil => cases h
  | cons item items ih =>
    cases item with
    | plain c free =>
      obtain ⟨more, hbytes, hcount⟩ := ih ((List.mem_cons.mp h).resolve_left (by intro h; cases h))
      refine ⟨more, ?_, hcount⟩
      rw [List.flatMap_cons, hbytes]
      rfl
    | pair c =>
      by_cases hc : c = quote
      · refine ⟨items, ?_, ?_⟩
        · rw [List.flatMap_cons, frontBytes, if_pos hc, hc]
          rfl
        · intro q
          rw [counter, if_pos hc]
      · obtain ⟨more, hbytes, hcount⟩ := ih ((List.mem_cons.mp h).resolve_left
          (by intro h; exact hc (Item.pair.inj h).symm))
        refine ⟨more, ?_, ?_⟩
        · rw [List.flatMap_cons, hbytes, frontBytes, if_neg hc]
          rfl
        · intro q
          rw [counter, hcount]

theorem frontBytes_all {items : List Item} (h : .pair quote ∉ items) :
    items.flatMap Item.bytes = frontBytes items := by
  induction items with
  | nil => rfl
  | cons item items ih =>
    have ih' := ih (fun hm => h (List.mem_cons_of_mem _ hm))
    cases item with
    | plain c free =>
      rw [List.flatMap_cons, ih']
      rfl
    | pair c =>
      have hc : c ≠ quote := fun hc => h (hc ▸ List.mem_cons_self)
      rw [List.flatMap_cons, ih', frontBytes, if_neg hc]
      rfl

/-- Out of step, with a backslash in the text: the quote in front of the string is taken for
one in quotes. -/
theorem segment_escaped (p : Segment) (H : s.At 1 i) (hb : backslash ∈ p.text) :
    ∃ s', Walks i s p.bytes s' ∧ s'.At (if Closed p.items then 0 else 1) (i + p.bytes.length) := by
  obtain ⟨s₁, hwalk₁, H₁⟩ := walks_text p.noQuote H (Or.inl rfl)
  rw [if_pos hb] at H₁
  obtain ⟨s₂, hwalk₂, H₂⟩ := H₁.quoted (by decide) quote
  obtain ⟨s₃, hwalk₃, H₃⟩ := walks_string p.items H₂
  refine ⟨s₃, hwalk₁.append (hwalk₂.append hwalk₃), ?_⟩
  rw [p.length_bytes]
  exact H₃

/-- A string that is seen outside quotes, with the quote behind it. -/
theorem items_outside (items : List Item) (H : s.At 0 i) :
    (hasCrlf false (frontBytes items) = true → ∀ ys,
        (scanHeader i (items.flatMap Item.bytes ++ [quote] ++ ys) s).offsetLF ≠ -1 ∧
        (scanHeader i (items.flatMap Item.bytes ++ [quote] ++ ys) s).offsetLF <
          (i + (items.flatMap Item.bytes ++ [quote]).length : Nat)) ∧
      (hasCrlf false (frontBytes items) = false → ∃ s', Walks i s (items.flatMap Item.bytes ++ [quote]) s' ∧
        s'.At (if Closed items ∧ .pair quote ∈ items then 0 else 1)
          (i + (items.flatMap Item.bytes ++ [quote]).length)) := by
  obtain ⟨hcr, hbehind⟩ := H.notBehindCR
  obtain ⟨hwalks, hstops⟩ := scanHeader_text (quote_notMem_frontBytes items) H.inQuote H.noLF hcr hbehind
  -- the quote of the first backslash-quote opens a string for the loop; without one the
  -- quote at the end does
  by_cases hmem : .pair quote ∈ items
  · obtain ⟨more, hbytes, hcount⟩ := frontBytes_split hmem
    have hsplit : items.flatMap Item.bytes ++ [quote] =
        frontBytes items ++ ([quote] ++ (more.flatMap Item.bytes ++ [quote])) := by
      rw [hbytes, List.append_assoc]
      rfl
    have hclosed : Closed items ↔ Closed more := by
      unfold Closed
      rw [hcount 1]
    rw [hsplit, List.length_append]
    constructor
    · intro h ys
      rw [List.append_assoc]
      have hfound := hstops h ([quote] ++ (more.flatMap Item.bytes ++ [quote]) ++ ys)
      omega
    · intro h
      obtain ⟨s₁, hwalk₁, hq₁, hs₁, hcr₁⟩ := hwalks h
      obtain ⟨s₂, hwalk₂, H₂⟩ := open_quote hq₁ hs₁ hcr₁
      obtain ⟨s₃, hwalk₃, H₃⟩ := walks_string more H₂
      refine ⟨s₃, hwalk₁.append (hwalk₂.append hwalk₃), ?_⟩
      rw [if_congr (Iff.trans (and_iff_left hmem) hclosed) rfl rfl, List.length_append, List.length_singleton,
        ← Nat.add_assoc, ← Nat.add_assoc]
      exact H₃
  · rw [frontBytes_all hmem, List.length_append]
    constructor
    · intro h ys
      rw [List.append_assoc]
      have hfound := hstops h ([quote] ++ ys)
      omega
    · intro h
      obtain ⟨s₁, hwalk₁, hq₁, hs₁, hcr₁⟩ := hwalks h
      obtain ⟨s₂, hwalk₂, H₂⟩ := open_quote hq₁ hs₁ hcr₁
      refine ⟨s₂, hwalk₁.append hwalk₂, ?_⟩
      rw [if_neg fun h => hmem h.2, List.length_singleton, ← Nat.add_assoc]
      exact H₂

/-- Out of step, without a backslash in the text: the quote in front of the string closes. -/
theorem segment_outside (p : Segment) (H : s.At 1 i) (hb : backslash ∉ p.text) :
    (hasCrlf false (frontBytes p.items) = true → ∀ ys, (scanHeader i (p.bytes ++ ys) s).offsetLF ≠ -1 ∧
        (scanHeader i (p.bytes ++ ys) s).offsetLF < (i + p.bytes.length : Nat)) ∧
      (hasCrlf false (frontBytes p.items) = false → ∃ s', Walks i s p.bytes s' ∧
        s'.At (if Closed p.items ∧ .pair quote ∈ p.items then 0 else 1) (i + p.bytes.length)) := by
  obtain ⟨s₁, hwalk₁, H₁⟩ := walks_text p.noQuote H (Or.inl rfl)
  rw [if_neg hb] at H₁
  obtain ⟨s₂, hwalk₂, H₂⟩ := H₁.quoted (by decide) quote
  obtain ⟨hstops, hwalks⟩ := items_outside p.items H₂
  have hbytes : p.bytes = p.text ++ [quote] ++ (p.items.flatMap Item.bytes ++ [quote]) := by
    rw [Segment.bytes, List.append_assoc]
    rfl
  -- the text is in quotes, and the quote behind it closes
  have hfront := hwalk₁.append hwalk₂
  have hlenFront : i + (p.text ++ [quote]).length = i + p.text.length + 1 := by
    rw [List.length_append, List.length_singleton, Nat.add_assoc]
  rw [p.length_bytes]
  constructor
  · intro h ys
    rw [hbytes, List.append_assoc, hfront, hlenFront]
    exact hstops h ys
  · intro h
    obtain ⟨s₃, hwalk₃, H₃⟩ := hwalks h
    refine ⟨s₃, ?_, H₃⟩
    rw [hbytes]
    refine hfront.append ?_
    rw [hlenFront]
    exact hwalk₃

/-! Headers. -/

/-- The loop from a segment on, in step or not, ends where the header does exactly when it
comes out of the header in step. -/
theorem scanHeader_segments (ps : List Segment) {last : Bytes} (hquote : quote ∉ last)
    (hcrlf : hasCrlf false last = false) {inStep : Bool} (H : s.At (if inStep then 0 else 1) i) (rest : Bytes) :
    ((scanHeader i (ps.flatMap Segment.bytes ++ last ++ crlf ++ rest) s).offsetCR =
          (i + (ps.flatMap Segment.bytes ++ last).length : Nat) ∧
        (scanHeader i (ps.flatMap Segment.bytes ++ last ++ crlf ++ rest) s).offsetLF =
          (i + (ps.flatMap Segment.bytes ++ last).length : Nat) + 1) ↔ InStep inStep ps := by
  induction ps generalizing s i inStep with
  | nil =>
    rw [List.flatMap_nil, List.nil_append, List.append_assoc, InStep]
    cases inStep with
    | true =>
      obtain ⟨hcr, hbehind⟩ := H.notBehindCR
      obtain ⟨s₁, hwalk₁, hq₁, hs₁, hcr₁⟩ := (scanHeader_text hquote H.inQuote H.noLF hcr hbehind).1 hcrlf
      rw [hwalk₁, scanHeader_crlf hq₁ hs₁]
      exact ⟨fun _ => rfl, fun _ => ⟨rfl, rfl⟩⟩
    | false =>
      rw [if_neg Bool.false_ne_true] at H
      obtain ⟨s₁, hwalk₁, H₁⟩ := walks_text hquote H (Or.inl rfl)
      obtain ⟨s₂, hwalk₂, H₂⟩ := walks_text (t := crlf) (by decide) H₁ (by split_ifs; exacts [Or.inr rfl, Or.inl rfl])
      rw [hwalk₁, hwalk₂]
      -- the CRLF is behind the loop
      have hlater := scanHeader_later (i + last.length + crlf.length) rest H₂.noLF
      have hlen : crlf.length = 2 := rfl
      rw [hlen] at hlater ⊢
      constructor
      · intro h
        omega
      · intro h
        cases h
  | cons p ps ih =>
    have hsplit : (p :: ps).flatMap Segment.bytes ++ last ++ crlf ++ rest =
        p.bytes ++ (ps.flatMap Segment.bytes ++ last ++ crlf ++ rest) := by
      rw [List.flatMap_cons]
      simp only [List.append_assoc]
    have hlen : i + ((p :: ps).flatMap Segment.bytes ++ last).length =
        i + p.bytes.length + (ps.flatMap Segment.bytes ++ last).length := by
      rw [List.flatMap_cons, List.append_assoc, List.length_append, Nat.add_assoc]
    rw [hsplit, hlen]
    -- behind a segment that the loop goes through
    have next {b : Prop} [Decidable b] (h : ∃ s', Walks i s p.bytes s' ∧ s'.At (if b then 0 else 1) (i + p.bytes.length)) :
        ((scanHeader i (p.bytes ++ (ps.flatMap Segment.bytes ++ last ++ crlf ++ rest)) s).offsetCR =
              (i + p.bytes.length + (ps.flatMap Segment.bytes ++ last).length : Nat) ∧
            (scanHeader i (p.bytes ++ (ps.flatMap Segment.bytes ++ last ++ crlf ++ rest)) s).offsetLF =
              (i + p.bytes.length + (ps.flatMap Segment.bytes ++ last).length : Nat) + 1) ↔
          InStep (decide b) ps := by
      obtain ⟨s', hwalk, H'⟩ := h
      rw [hwalk]
      apply ih
      rw [if_congr (decide_eq_true_iff (p := b)) rfl rfl]
      exact H'
    -- on the segments: the counter behind one decides how the next one is seen
    cases inStep with
    | true => exact next (segment_inStep p H)
    | false =>
      rw [if_neg Bool.false_ne_true] at H
      rw [InStep]
      by_cases hb : backslash ∈ p.text
      · rw [if_pos hb]
        exact next (segment_escaped p H hb)
      · rw [if_neg hb]
        obtain ⟨hstops, hwalks⟩ := segment_outside p H hb
        cases hfront : hasCrlf false (frontBytes p.items) with
        | true =>
          have hfound := hstops hfront (ps.flatMap Segment.bytes ++ last ++ crlf ++ rest)
          constructor
          · intro h
            omega
          · intro h
            cases h.1
        | false =>
          rw [eq_self_iff_true, true_and]
          exact next (hwalks hfront)

end

/-- The header loop ends a header where the grammar does exactly when its strings leave the
loop in step. -/
theorem header_ends (h : Header) (o : Nat) (rest : Bytes) : EndsHeader h o rest ↔ InStep true h.segments := by
  have hsize : Walks o Scan.start h.size Scan.start := by
    intro ys
    have hplain := scanHeader_plain (i := o) (s := Scan.start) rfl rfl fun c hc => (h.sizeHex c hc).plain
    rw [scanHeader_open (by rw [hplain]; rfl), hplain]
  have hpos := List.length_pos_iff.mpr h.sizeNonempty
  have H : Scan.start.At (if true then 0 else 1) (o + h.size.length) := by
    refine ⟨rfl, rfl, ?_⟩
    show (-1 : Int) + 1 < (o + h.size.length : Nat)
    omega
  have hiff := scanHeader_segments h.segments h.noQuote h.noCrlf H rest
  have hsplit : h.bytes ++ crlf ++ rest =
      h.size ++ (h.segments.flatMap Segment.bytes ++ h.last ++ crlf ++ rest) := by
    rw [Header.bytes]
    simp only [List.append_assoc]
  have hlen : ((o + h.size.length + (h.segments.flatMap Segment.bytes ++ h.last).length : Nat) : Int) =
      (o : Int) + h.bytes.length := by
    have hbytes : h.bytes.length = h.size.length + (h.segments.flatMap Segment.bytes ++ h.last).length :=
      List.length_append
    omega
  rw [EndsHeader, hsplit, hsize, ← hlen]
  exact hiff

/-- Strings that are closed keep the loop in step. -/
theorem inStep_of_closed {ps : List Segment} (h : ∀ p ∈ ps, Closed p.items) : InStep true ps := by
  induction ps with
  | nil => rfl
  | cons p ps ih =>
    rw [InStep, decide_eq_true (h p List.mem_cons_self)]
    exact ih fun q hq => h q (List.mem_cons_of_mem _ hq)

/-- `1;a="\x"`. -/
def escapedHeader : Header where
  size := [49]
  segments := [⟨[59, 97, 61], [.pair 120], by decide, rfl⟩]
  last := []
  sizeNonempty := List.cons_ne_nil _ _
  sizeHex := List.forall_mem_singleton.mpr (by decide)
  noQuote := List.not_mem_nil
  noCrlf := rfl

/-- The loop finds no end of this header, and takes the body for a part of it. -/
theorem escaped_header_open : ¬ EndsHeader escapedHeader 0 [98, 13, 10] ∧
    (scanHeader 0 (escapedHeader.bytes ++ crlf ++ [98, 13, 10]) Scan.start).offsetLF = -1 := by
  refine ⟨?_, by decide⟩
  intro h
  exact absurd h.2 (by decide)

end IcecastCommon.Encoding
