import Mathlib.Data.List.Sort
import Mathlib.Data.List.TakeWhile
import Mathlib.Tactic

/- Sequences ordered by a three-way comparison. A comparison returns a negative
   number, zero or a positive number; `TotalPreorder` says that the sign is that of
   a total preorder, in which different values may compare equal. An ordered
   sequence splits at a key into what is smaller, what is equal and what is larger,
   and `List.orderedInsert` puts a key before everything not smaller. `Greatest` is the
   nearest value from below; under the reversed comparison it is the one from above. -/
namespace IcecastCommon.Library

variable {V : Type}

/-- `a` is not after `b`. -/
def NotAfter (cmp : V → V → Int) (a b : V) : Prop := cmp a b ≤ 0

instance (cmp : V → V → Int) : DecidableRel (NotAfter cmp) := fun a b => inferInstanceAs (Decidable (cmp a b ≤ 0))

/-- The comparison is that of a total preorder. -/
structure TotalPreorder (cmp : V → V → Int) : Prop where
  swap : ∀ a b, cmp a b < 0 ↔ 0 < cmp b a
  trans : ∀ a b c, cmp a b ≤ 0 → cmp b c ≤ 0 → cmp a c ≤ 0

/-- In order, equal values next to each other. -/
abbrev Ordered (cmp : V → V → Int) (l : List V) : Prop := l.Pairwise (NotAfter cmp)

namespace TotalPreorder
variable {cmp : V → V → Int} (H : TotalPreorder cmp)
include H

theorem notAfter_of_nonneg {a b : V} (h : 0 ≤ cmp a b) : NotAfter cmp b a := by
  have := H.swap a b
  have := H.swap b a
  unfold NotAfter
  omega

theorem total : Std.Total (NotAfter cmp) :=
  ⟨fun a b => by
    rcases Int.le_total (cmp a b) 0 with h | h
    · exact Or.inl h
    · exact Or.inr (H.notAfter_of_nonneg h)⟩

theorem refl (a : V) : NotAfter cmp a a := by
  have := H.swap a a
  unfold NotAfter
  omega

theorem isTrans : IsTrans V (NotAfter cmp) := ⟨H.trans⟩

/-- A key before `a` is before everything `a` is not after. -/
theorem lt_of_lt {k a b : V} (hk : cmp k a < 0) (hab : NotAfter cmp a b) : cmp k b < 0 := by
  by_contra h
  have hba : NotAfter cmp b k := H.notAfter_of_nonneg (by omega)
  have := H.trans a b k hab hba
  have := H.swap k a
  omega

/-- A key after `b` is after everything not after `b`. -/
theorem gt_of_gt {k a b : V} (hk : 0 < cmp k b) (hab : NotAfter cmp a b) : 0 < cmp k a := by
  by_contra h
  have := H.trans k a b (by omega) hab
  omega

/-- Inserting keeps the order. -/
theorem ordered_insert {l : List V} (hl : Ordered cmp l) (k : V) :
    Ordered cmp (l.orderedInsert (NotAfter cmp) k) := by
  have := H.total
  have := H.isTrans
  exact hl.orderedInsert k l

end TotalPreorder

/-- A key is inserted after the values it is after and before the first it is not after. -/
theorem orderedInsert_append {cmp : V → V → Int} {k : V} {xs ys : List V} (hxs : ∀ x ∈ xs, 0 < cmp k x)
    (hys : ∀ y ∈ ys, cmp k y ≤ 0) :
    (xs ++ ys).orderedInsert (NotAfter cmp) k = xs ++ k :: ys := by
  induction xs with
  | nil =>
    cases ys with
    | nil => rfl
    | cons y ys =>
      have hy : NotAfter cmp k y := hys y (by simp)
      exact List.orderedInsert_cons_of_le _ _ hy
  | cons x xs ih =>
    have hx : ¬ NotAfter cmp k x := by
      have := hxs x (by simp)
      unfold NotAfter
      omega
    rw [List.cons_append, List.orderedInsert_of_not_le _ _ hx, ih fun z hz => hxs z (by simp [hz])]
    rfl

/-! The nearest value. -/

/-- The comparison with its arguments exchanged. -/
def reversed (cmp : V → V → Int) : V → V → Int := fun a b => cmp b a

theorem TotalPreorder.reversed {cmp : V → V → Int} (H : TotalPreorder cmp) :
    TotalPreorder (reversed cmp) :=
  ⟨fun a b => H.swap b a, fun a b c hab hbc => H.trans c b a hbc hab⟩

/-- `e` is a greatest value of `l` among those not after `k`. -/
structure Greatest (cmp : V → V → Int) (l : List V) (k e : V) : Prop where
  mem : e ∈ l
  notAfter : NotAfter cmp e k
  greatest : ∀ x ∈ l, NotAfter cmp x k → NotAfter cmp x e

namespace Greatest
variable {cmp : V → V → Int} {l near far : List V} {k c e : V}

theorem of_equal (H : TotalPreorder cmp) (hc : c ∈ l) (hck : NotAfter cmp c k) (hkc : NotAfter cmp k c) :
    Greatest cmp l k c :=
  ⟨hc, hck, fun x _ hx => H.trans x k c hx hkc⟩

/-- Values that are after `k` do not matter. -/
theorem skip (h : Greatest cmp near k e) (hl : ∀ x, x ∈ l ↔ x ∈ near ∨ x ∈ far)
    (hfar : ∀ x ∈ far, ¬ NotAfter cmp x k) : Greatest cmp l k e := by
  refine ⟨(hl e).mpr (Or.inl h.mem), h.notAfter, ?_⟩
  intro x hx hxk
  rcases (hl x).mp hx with hx | hx
  · exact h.greatest x hx hxk
  · exact absurd hxk (hfar x hx)

/-- Values that are not after any of the others do not matter. -/
theorem above (h : Greatest cmp far k e) (hl : ∀ x, x ∈ l ↔ x ∈ near ∨ x ∈ far)
    (hnear : ∀ x ∈ near, ∀ y ∈ far, NotAfter cmp x y) : Greatest cmp l k e := by
  refine ⟨(hl e).mpr (Or.inr h.mem), h.notAfter, ?_⟩
  intro x hx hxk
  rcases (hl x).mp hx with hx | hx
  · exact hnear x hx e h.mem
  · exact h.greatest x hx hxk

end Greatest

/-! Positions in an ordered sequence. -/

/-- The values before position `n` are those with `P`. -/
def CutAt (P : V → Prop) (l : List V) (n : Nat) : Prop := ∀ i e, l[i]? = some e → (P e ↔ i < n)

theorem cutAt_append {P : V → Prop} {as bs : List V} (has : ∀ a ∈ as, P a) (hbs : ∀ b ∈ bs, ¬ P b) :
    CutAt P (as ++ bs) as.length := by
  intro i e he
  by_cases hi : i < as.length
  · rw [List.getElem?_append_left hi] at he
    exact ⟨fun _ => hi, fun _ => has e (List.mem_of_getElem? he)⟩
  · rw [List.getElem?_append_right (by omega)] at he
    exact ⟨fun hP => absurd hP (hbs e (List.mem_of_getElem? he)), fun hlt => absurd hlt hi⟩

/-- The values up to the first one without `p`, and the rest. -/
theorem exists_while (p : V → Bool) (l : List V) :
    ∃ ts ds, l = ts ++ ds ∧ l.takeWhile p = ts ∧ l.dropWhile p = ds ∧ (∀ e ∈ ts, p e = true) ∧
      ∀ d rest, ds = d :: rest → p d = false := by
  refine ⟨l.takeWhile p, l.dropWhile p, List.takeWhile_append_dropWhile.symm, rfl, rfl, ?_, ?_⟩
  · intro e he
    exact List.mem_takeWhile_imp he
  · intro d rest hd
    have hhead := List.head?_dropWhile_not p l
    rw [hd] at hhead
    simpa using hhead

section
variable {cmp : V → V → Int} {k c : V} {as bs : List V}

/-- Whether a value is equal to `k`. -/
def equalTo (cmp : V → V → Int) (k : V) (e : V) : Bool := decide (cmp k e = 0)

/-- Going left from a value equal to `k` over the equal ones ends where the values stop
being smaller. -/
theorem Ordered.cut_left (H : TotalPreorder cmp) (hs : Ordered cmp (as ++ c :: bs)) (hc : cmp k c = 0) :
    CutAt (fun e => 0 < cmp k e) (as ++ c :: bs) (as.reverse.dropWhile (equalTo cmp k)).length := by
  obtain ⟨has, hcbs, hcross⟩ := List.pairwise_append.mp hs
  obtain ⟨hcb, _⟩ := List.pairwise_cons.mp hcbs
  obtain ⟨ts, ds, hsplit, _, hdrop, hts, hds⟩ := exists_while (equalTo cmp k) as.reverse
  have hlist : as = ds.reverse ++ ts.reverse := by
    rw [← List.reverse_append, ← hsplit, List.reverse_reverse]
  have hsmaller : ∀ e ∈ ds, 0 < cmp k e := by
    cases ds with
    | nil => simp
    | cons d ds =>
      have hmem : d ∈ as := by simp [hlist]
      have hd : 0 < cmp k d := by
        have hne : cmp k d ≠ 0 := of_decide_eq_false (hds d ds rfl)
        have hge : ¬ cmp k d < 0 := by
          intro hlt
          have := H.lt_of_lt hlt (hcross d hmem c List.mem_cons_self)
          omega
        omega
      intro e he
      rcases List.mem_cons.mp he with rfl | he
      · exact hd
      · rw [hlist, List.reverse_cons, List.append_assoc] at has
        have hed := (List.pairwise_append.mp has).2.2 e (List.mem_reverse.mpr he) d (by simp)
        exact H.gt_of_gt hd hed
  rw [hdrop, hlist, List.append_assoc, ← List.length_reverse]
  apply cutAt_append
  · intro e he
    exact hsmaller e (List.mem_reverse.mp he)
  · intro e he
    simp only [List.mem_append, List.mem_reverse, List.mem_cons] at he
    rcases he with he | rfl | he
    · have : cmp k e = 0 := of_decide_eq_true (hts e he)
      omega
    · omega
    · have := H.trans k c e (by omega) (hcb e he)
      omega

/-- Going right ends where the values start being larger. -/
theorem Ordered.cut_right (H : TotalPreorder cmp) (hs : Ordered cmp (as ++ c :: bs)) (hc : cmp k c = 0) :
    CutAt (fun e => 0 ≤ cmp k e) (as ++ c :: bs)
      (as.length + (bs.takeWhile (equalTo cmp k)).length + 1) := by
  obtain ⟨_, hcbs, hcross⟩ := List.pairwise_append.mp hs
  obtain ⟨hcb, hbs⟩ := List.pairwise_cons.mp hcbs
  obtain ⟨ts, ds, hsplit, htake, _, hts, hds⟩ := exists_while (equalTo cmp k) bs
  have hlarger : ∀ e ∈ ds, cmp k e < 0 := by
    cases ds with
    | nil => simp
    | cons d ds =>
      have hd : cmp k d < 0 := by
        have hne : cmp k d ≠ 0 := of_decide_eq_false (hds d ds rfl)
        have := H.trans k c d (by omega) (hcb d (by simp [hsplit]))
        omega
      intro e he
      rcases List.mem_cons.mp he with rfl | he
      · exact hd
      · rw [hsplit, List.pairwise_append] at hbs
        exact H.lt_of_lt hd ((List.pairwise_cons.mp hbs.2.1).1 e he)
  have hlist : as ++ c :: bs = (as ++ c :: ts) ++ ds := by simp [hsplit]
  have hlen : as.length + ts.length + 1 = (as ++ c :: ts).length := by
    simp only [List.length_append, List.length_cons]
    omega
  rw [htake, hlist, hlen]
  apply cutAt_append
  · intro e he
    simp only [List.mem_append, List.mem_cons] at he
    rcases he with he | rfl | he
    · by_contra hlt
      have := H.lt_of_lt (k := k) (by omega) (hcross e he c List.mem_cons_self)
      omega
    · omega
    · have : cmp k e = 0 := of_decide_eq_true (hts e he)
      omega
  · intro e he
    have := hlarger e he
    omega

end

end IcecastCommon.Library
