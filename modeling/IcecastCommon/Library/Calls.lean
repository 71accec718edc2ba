import Mathlib.Data.List.Forall2

/- Sequences of calls of a step function that may fault. `Tracks` couples the state with
   a history, which grows with every call and its output; the rules carry such a
   coupling, a bound on the outputs and a measure along a whole sequence of calls. -/
namespace IcecastCommon.Library

theorem bind_of_eq {α β : Type} {x : Option α} {a : α} (h : x = some a) (g : α → Option β) :
    x.bind g = g a := by
  rw [h]
  rfl

theorem bind_of_none {α β : Type} {x : Option α} (h : x = none) (g : α → Option β) :
    x.bind g = none := by
  rw [h]
  rfl

variable {I O S H : Type}

/-- The outputs of a sequence of calls and the state after it. -/
def runCalls (step : I → S → Option (O × S)) : List I → S → Option (List O × S)
  | [], s => some ([], s)
  | i :: is, s => do
    let (o, s) ← step i s
    let (os, s) ← runCalls step is s
    some (o :: os, s)

/-- The history after a sequence of calls with their outputs. -/
def history (grow : H → I → O → H) : H → List I → List O → H
  | h, i :: is, o :: os => history grow (grow h i o) is os
  | h, _, _ => h

/-- A history that only records the calls, latest first. -/
theorem history_record {is : List I} {os : List O} (h : is.length = os.length) (is₀ : List I) :
    history (fun hist i (_ : O) => i :: hist) is₀ is os = is.reverse ++ is₀ := by
  induction is generalizing os is₀ with
  | nil => rfl
  | cons i is ih =>
    obtain ⟨o, os, rfl⟩ := List.exists_cons_of_length_eq_add_one h.symm
    rw [history, ih (Nat.succ.inj h), List.reverse_cons, List.append_assoc]
    rfl

theorem runCalls_cons {step : I → S → Option (O × S)} {i : I} {is : List I} {s s1 : S} {o : O}
    (h : step i s = some (o, s1)) :
    runCalls step (i :: is) s = (runCalls step is s1).map fun r => (o :: r.1, r.2) := by
  simp only [runCalls, h, Option.bind_eq_bind, Option.bind_some]
  cases runCalls step is s1 <;> rfl

theorem runCalls_cons_inv {step : I → S → Option (O × S)} {i : I} {is : List I} {s s' : S}
    {os : List O} (h : runCalls step (i :: is) s = some (os, s')) :
    ∃ o s1 os', step i s = some (o, s1) ∧ runCalls step is s1 = some (os', s') ∧ os = o :: os' := by
  cases hs : step i s with
  | none => simp [runCalls, hs] at h
  | some r =>
    obtain ⟨o, s1⟩ := r
    rw [runCalls_cons hs, Option.map_eq_some_iff] at h
    obtain ⟨⟨os', s2⟩, hr, he⟩ := h
    cases he
    exact ⟨o, s1, os', rfl, hr, rfl⟩

theorem runCalls_append {step : I → S → Option (O × S)} {is : List I} {s s1 : S} {os : List O}
    (h : runCalls step is s = some (os, s1)) (js : List I) :
    runCalls step (is ++ js) s = (runCalls step js s1).map fun r => (os ++ r.1, r.2) := by
  induction is generalizing s os with
  | nil =>
    simp only [runCalls, Option.some.injEq, Prod.mk.injEq] at h
    obtain ⟨rfl, rfl⟩ := h
    rw [List.nil_append]
    cases runCalls step js s <;> rfl
  | cons i is ih =>
    obtain ⟨o, s2, os', hs, hr, rfl⟩ := runCalls_cons_inv h
    rw [List.cons_append, runCalls_cons hs, ih hr]
    cases runCalls step js s1 <;> rfl

/-- What every call that goes through preserves holds after a sequence of calls. -/
theorem runCalls_preserves {step : I → S → Option (O × S)} {P : S → Prop}
    (hstep : ∀ i s o s', P s → step i s = some (o, s') → P s') {is : List I} {s s' : S} {os : List O}
    (hs : P s) (h : runCalls step is s = some (os, s')) : P s' := by
  induction is generalizing s os with
  | nil =>
    cases h
    exact hs
  | cons i is ih =>
    obtain ⟨o, s1, os', hs1, hr, rfl⟩ := runCalls_cons_inv h
    exact ih (hstep i s o s1 hs hs1) hr

section

variable (step : I → S → Option (O × S)) (grow : H → I → O → H) (Inv : H → S → Prop)
  (Post : I → O → Prop) (Ok : I → Prop)

/-- One call goes through, keeps the coupling and has an allowed output. -/
def Tracks : Prop :=
  ∀ h i s, Ok i → Inv h s →
    ∃ o s', step i s = some (o, s') ∧ Inv (grow h i o) s' ∧ Post i o

variable {step grow Inv Post Ok}

/-- The invariant rule for sequences of calls. -/
theorem Tracks.run (T : Tracks step grow Inv Post Ok) (is : List I) (hok : ∀ i ∈ is, Ok i) {h : H}
    {s : S} (hinv : Inv h s) :
    ∃ os s', runCalls step is s = some (os, s') ∧ Inv (history grow h is os) s' ∧
      List.Forall₂ Post is os := by
  induction is generalizing h s with
  | nil => exact ⟨[], s, rfl, hinv, List.Forall₂.nil⟩
  | cons i is ih =>
    obtain ⟨o, s1, hs, hinv1, hpost⟩ := T h i s (hok i List.mem_cons_self) hinv
    obtain ⟨os, s', hr, hinv', hposts⟩ := ih (fun j hj => hok j (List.mem_cons_of_mem _ hj)) hinv1
    refine ⟨o :: os, s', ?_, hinv', List.Forall₂.cons hpost hposts⟩
    rw [runCalls_cons hs, hr]
    rfl

/-- Every call lowers a measure until it is 0; enough calls bring it there. -/
theorem Tracks.drains (T : Tracks step grow Inv Post Ok) (m : H → S → Nat)
    (hm : ∀ h i s o s', Ok i → Inv h s → step i s = some (o, s') → m (grow h i o) s' ≤ m h s - 1)
    (is : List I) (hok : ∀ i ∈ is, Ok i) {h : H} {s : S} (hinv : Inv h s)
    (hlen : m h s ≤ is.length) :
    ∃ os s', runCalls step is s = some (os, s') ∧ Inv (history grow h is os) s' ∧
      m (history grow h is os) s' = 0 := by
  induction is generalizing h s with
  | nil => exact ⟨[], s, rfl, hinv, Nat.le_zero.mp hlen⟩
  | cons i is ih =>
    obtain ⟨o, s1, hs, hinv1, _⟩ := T h i s (hok i List.mem_cons_self) hinv
    have hlow := hm h i s o s1 (hok i List.mem_cons_self) hinv hs
    rw [List.length_cons] at hlen
    obtain ⟨os, s', hr, hinv', hz⟩ :=
      ih (fun j hj => hok j (List.mem_cons_of_mem _ hj)) hinv1 (by omega)
    refine ⟨o :: os, s', ?_, hinv', hz⟩
    rw [runCalls_cons hs, hr]
    rfl

end

/-! Conditions on the state before each call. -/

/-- Every call meets the condition in the state it is made in. -/
def Meets (step : I → S → Option (O × S)) (ok : I → S → Prop) : List I → S → Prop
  | [], _ => True
  | i :: is, s => ok i s ∧ ∀ o s', step i s = some (o, s') → Meets step ok is s'

section

variable {step : I → S → Option (O × S)} {grow : H → I → O → H} {Inv P : H → S → Prop}
  {ok : I → S → Prop}

/-- A call that meets the condition keeps the invariant. -/
def Keeps (step : I → S → Option (O × S)) (grow : H → I → O → H) (Inv : H → S → Prop)
    (ok : I → S → Prop) : Prop :=
  ∀ h i s, ok i s → Inv h s → ∃ o s', step i s = some (o, s') ∧ Inv (grow h i o) s'

theorem Keeps.run (T : Keeps step grow Inv ok) {is : List I} {h : H} {s : S} (hinv : Inv h s)
    (hmeets : Meets step ok is s) :
    ∃ os s', runCalls step is s = some (os, s') ∧ Inv (history grow h is os) s' := by
  induction is generalizing h s with
  | nil => exact ⟨[], s, rfl, hinv⟩
  | cons i is ih =>
    obtain ⟨hok, hrest⟩ := hmeets
    obtain ⟨o, s1, hs, hinv1⟩ := T h i s hok hinv
    obtain ⟨os, s', hr, hinv'⟩ := ih hinv1 (hrest o s1 hs)
    refine ⟨o :: os, s', ?_, hinv'⟩
    rw [runCalls_cons hs, hr]
    rfl

theorem Meets.prefix {is js : List I} {s : S} (h : Meets step ok (is ++ js) s) : Meets step ok is s := by
  induction is generalizing s with
  | nil => trivial
  | cons i is ih => exact ⟨h.1, fun o s' hs => ih (h.2 o s' hs)⟩

/-- The property holds all along a sequence of calls that meet the condition. -/
theorem Keeps.always (T : Keeps step grow Inv ok) (hP : ∀ h s, Inv h s → P h s) {is : List I} {h : H} {s : S}
    (hinv : Inv h s) (hmeets : Meets step ok is s) :
    ∀ js, js <+: is → ∃ os s', runCalls step js s = some (os, s') ∧ P (history grow h js os) s' := by
  intro js hjs
  obtain ⟨ks, rfl⟩ := hjs
  obtain ⟨os, s', hr, hinv'⟩ := T.run hinv hmeets.prefix
  exact ⟨os, s', hr, hP _ _ hinv'⟩

/-- When calls of a kind break the property outside the condition, calls of that kind along which it
holds meet the condition. -/
theorem Keeps.meets (T : Keeps step grow Inv ok) {Q : I → Prop}
    (hbad : ∀ h i s o s', Inv h s → Q i → ¬ ok i s → step i s = some (o, s') → ¬ P (grow h i o) s')
    {is : List I} (hkind : ∀ i ∈ is, Q i) {h : H} {s : S} (hinv : Inv h s)
    (hall : ∀ js, js <+: is → ∃ os s', runCalls step js s = some (os, s') ∧ P (history grow h js os) s') :
    Meets step ok is s := by
  induction is generalizing h s with
  | nil => trivial
  | cons i is ih =>
    have hok : ok i s := by
      by_contra hnot
      obtain ⟨os, s', hr, hp⟩ := hall [i] ⟨is, rfl⟩
      obtain ⟨o, s1, os', hs, hr', rfl⟩ := runCalls_cons_inv hr
      cases hr'
      exact hbad h i s o s' hinv (hkind i List.mem_cons_self) hnot hs hp
    refine ⟨hok, fun o s1 hs => ?_⟩
    obtain ⟨o', s1', hs', hinv1⟩ := T h i s hok hinv
    obtain ⟨rfl, rfl⟩ : o' = o ∧ s1' = s1 := Prod.mk.inj (Option.some.inj (hs'.symm.trans hs))
    refine ih (fun j hj => hkind j (List.mem_cons_of_mem _ hj)) hinv1 fun js hjs => ?_
    obtain ⟨ks, rfl⟩ := hjs
    obtain ⟨os, s', hr, hp⟩ := hall (i :: js) ⟨ks, rfl⟩
    obtain ⟨o₂, s₂, os', hs₂, hr₂, rfl⟩ := runCalls_cons_inv hr
    obtain ⟨rfl, rfl⟩ : o' = o₂ ∧ s1' = s₂ := Prod.mk.inj (Option.some.inj (hs.symm.trans hs₂))
    exact ⟨os', s', hr₂, hp⟩

/-- When a call outside the condition breaks the property, the property holds all along a
sequence of calls exactly when every call meets the condition. -/
theorem Keeps.always_iff (T : Keeps step grow Inv ok) (hP : ∀ h s, Inv h s → P h s)
    (hbad : ∀ h i s o s', Inv h s → ¬ ok i s → step i s = some (o, s') → ¬ P (grow h i o) s')
    {l : List I} {h : H} {s : S} (hinv : Inv h s) :
    (∀ js, js <+: l → ∃ os s', runCalls step js s = some (os, s') ∧ P (history grow h js os) s') ↔
      Meets step ok l s :=
  ⟨T.meets (Q := fun _ => True) (fun h i s o s' hi _ => hbad h i s o s' hi) (fun _ _ => trivial) hinv,
    T.always hP hinv⟩

end

/-! Two states that cannot be told apart. -/

theorem rel_bind {A B C D : Type} {r : A → B → Prop} {t : C → D → Prop} {x : Option A} {y : Option B}
    (h : Option.Rel r x y) {f : A → Option C} {g : B → Option D}
    (hfg : ∀ a b, r a b → Option.Rel t (f a) (g b)) : Option.Rel t (x.bind f) (y.bind g) := by
  cases h with
  | some hab => exact hfg _ _ hab
  | none => exact .none

theorem rel_map {A B C D : Type} {r : A → B → Prop} {t : C → D → Prop} {x : Option A} {y : Option B}
    (h : Option.Rel r x y) {f : A → C} {g : B → D} (hfg : ∀ a b, r a b → t (f a) (g b)) :
    Option.Rel t (x.map f) (y.map g) := by
  cases h with
  | some hab => exact .some (hfg _ _ hab)
  | none => exact .none

/-- The same output, and related states. -/
def SameOut (R : S → S → Prop) (r r' : O × S) : Prop := r.1 = r'.1 ∧ R r.2 r'.2

/-- When every call on related states faults on both or gives the same output and related
states, so does every sequence of calls. -/
theorem runCalls_alike {step : I → S → Option (O × S)} {R : S → S → Prop}
    (hstep : ∀ i s s', R s s' → Option.Rel (SameOut R) (step i s) (step i s')) (is : List I) {s s' : S}
    (h : R s s') : Option.Rel (SameOut R) (runCalls step is s) (runCalls step is s') := by
  induction is generalizing s s' with
  | nil => exact .some ⟨rfl, h⟩
  | cons i is ih =>
    apply rel_bind (hstep i s s' h)
    intro r r' hr
    apply rel_bind (ih hr.2)
    intro rs rs' hrs
    refine .some ⟨?_, hrs.2⟩
    show r.1 :: rs.1 = r'.1 :: rs'.1
    rw [hr.1, hrs.1]

theorem runCalls_outputs_eq {step : I → S → Option (O × S)} {R : S → S → Prop}
    (hstep : ∀ i s s', R s s' → Option.Rel (SameOut R) (step i s) (step i s')) (is : List I) {s s' : S}
    (h : R s s') : (runCalls step is s).map Prod.fst = (runCalls step is s').map Prod.fst := by
  have hall := runCalls_alike hstep is h
  generalize runCalls step is s = x, runCalls step is s' = y at hall
  cases hall with
  | some hr => exact congrArg some hr.1
  | none => rfl

/-! Rounds of calls. -/

section

variable {step : I → S → Option (O × S)} {grow : H → I → O → H} {Inv : H → S → Prop} {ok : I → S → Prop}
  {work : S → Nat} {Settled : S → Prop}

/-- When every call lowers a measure or changes nothing, a round lowers it or changes nothing. -/
theorem Keeps.round (T : Keeps step grow Inv ok)
    (hcall : ∀ h i s o s', Inv h s → ok i s → step i s = some (o, s') → s' = s ∨ work s' < work s)
    {is : List I} {h : H} {s : S} (hinv : Inv h s) (hmeets : Meets step ok is s) :
    ∃ os s', runCalls step is s = some (os, s') ∧ Inv (history grow h is os) s' ∧
      (work s' < work s ∨ s' = s ∧ ∀ i ∈ is, ok i s ∧ ∃ o, step i s = some (o, s)) := by
  induction is generalizing h s with
  | nil => exact ⟨[], s, rfl, hinv, Or.inr ⟨rfl, fun i hi => absurd hi List.not_mem_nil⟩⟩
  | cons i is ih =>
    obtain ⟨hok, hrest⟩ := hmeets
    obtain ⟨o, s1, hs, hinv1⟩ := T h i s hok hinv
    obtain ⟨os, s', hr, hinv', hwork⟩ := ih hinv1 (hrest o s1 hs)
    refine ⟨o :: os, s', by rw [runCalls_cons hs, hr]; rfl, hinv', ?_⟩
    rcases hcall h i s o s1 hinv hok hs with rfl | hlow
    · refine hwork.imp_right fun hsame => ⟨hsame.1, fun j hj => ?_⟩
      rcases List.mem_cons.mp hj with rfl | hj
      · exact ⟨hok, o, hs⟩
      · exact hsame.2 j hj
    · rcases hwork with hlow' | ⟨rfl, _⟩
      · exact Or.inl (Nat.lt_trans hlow' hlow)
      · exact Or.inl hlow

/-- A state that no call changes stays. -/
theorem Meets.stays (hstay : ∀ i s o s', Settled s → ok i s → step i s = some (o, s') → s' = s) {is : List I}
    {s s' : S} {os : List O} (hset : Settled s) (hmeets : Meets step ok is s)
    (hr : runCalls step is s = some (os, s')) : s' = s := by
  induction is generalizing os with
  | nil =>
    cases hr
    rfl
  | cons i is ih =>
    obtain ⟨o, s1, os', hs, hr', rfl⟩ := runCalls_cons_inv hr
    obtain ⟨hok, hrest⟩ := hmeets
    obtain rfl := hstay i s o s1 hset hok hs
    exact ih (hrest o s1 hs) hr'

/-- Enough rounds settle the state, when a full round that changes nothing finds it settled. -/
theorem Keeps.settles (T : Keeps step grow Inv ok) (full : List I → S → Prop)
    (hcall : ∀ h i s o s', Inv h s → ok i s → step i s = some (o, s') → s' = s ∨ work s' < work s)
    (hfull : ∀ h is s, Inv h s → full is s → (∀ i ∈ is, ok i s ∧ ∃ o, step i s = some (o, s)) → Settled s)
    (hstay : ∀ i s o s', Settled s → ok i s → step i s = some (o, s') → s' = s)
    {rounds : List (List I)} {h : H} {s : S} (hinv : Inv h s)
    (hmeets : Meets (runCalls step) (fun is s => full is s ∧ Meets step ok is s) rounds s)
    (hwork : Settled s ∨ work s < rounds.length) :
    ∃ os s', runCalls (runCalls step) rounds s = some (os, s') ∧ Settled s' := by
  induction rounds generalizing h s with
  | nil => exact ⟨[], s, rfl, hwork.resolve_right (Nat.not_lt_zero _)⟩
  | cons is rounds ih =>
    obtain ⟨⟨hround, hcalls⟩, hrest⟩ := hmeets
    obtain ⟨os, s1, hr, hinv1, hlow⟩ := T.round hcall hinv hcalls
    have hnext : Settled s1 ∨ work s1 < rounds.length := by
      rcases hlow with hlow | ⟨rfl, hsame⟩
      · rcases hwork with hset | hwork
        · rw [hcalls.stays hstay hset hr]
          exact Or.inl hset
        · rw [List.length_cons] at hwork
          exact Or.inr (by omega)
      · exact Or.inl (hfull h is s1 hinv hround hsame)
    obtain ⟨oss, s', hrs, hset⟩ := ih hinv1 (hrest os s1 hr) hnext
    exact ⟨os :: oss, s', by rw [runCalls_cons hr, hrs]; rfl, hset⟩

end

/-- The history that records every call with its output. -/
theorem history_zip (is : List I) (os : List O) (h : List (I × O)) :
    history (fun h i o => h ++ [(i, o)]) h is os = h ++ is.zip os := by
  induction is generalizing os h with
  | nil => exact (List.append_nil h).symm
  | cons i is ih =>
    cases os with
    | nil => exact (List.append_nil h).symm
    | cons o os => rw [history, ih, List.append_assoc, List.zip_cons_cons, List.singleton_append]

/-! Runs whose condition can be evaluated. -/

/-- Every call meets the condition. -/
def meetsCheck (step : I → S → Option (O × S)) (ok : I → S → Prop) [∀ i s, Decidable (ok i s)] :
    List I → S → Bool
  | [], _ => true
  | i :: is, s => decide (ok i s) && ((step i s).map fun r => meetsCheck step ok is r.2).getD true

theorem Meets.cons_iff {step : I → S → Option (O × S)} {ok : I → S → Prop} {i : I} {is : List I} {s : S} :
    Meets step ok (i :: is) s ↔ ok i s ∧ ∀ r ∈ step i s, Meets step ok is r.2 :=
  and_congr_right fun _ => ⟨fun h r hr => h r.1 r.2 hr, fun h o s' hs => h (o, s') hs⟩

instance Meets.decidable (step : I → S → Option (O × S)) (ok : I → S → Prop) [∀ i s, Decidable (ok i s)] :
    (is : List I) → (s : S) → Decidable (Meets step ok is s)
  | [], _ => inferInstanceAs (Decidable True)
  | i :: is, s =>
    have := fun s => Meets.decidable step ok is s
    decidable_of_iff (ok i s ∧ ∀ r ∈ step i s, Meets step ok is r.2) Meets.cons_iff.symm

theorem Meets.of_check {step : I → S → Option (O × S)} {ok : I → S → Prop} [∀ i s, Decidable (ok i s)]
    {is : List I} {s : S} (h : meetsCheck step ok is s = true) : Meets step ok is s := by
  induction is generalizing s with
  | nil => trivial
  | cons i is ih =>
    rw [meetsCheck, Bool.and_eq_true, decide_eq_true_eq] at h
    refine ⟨h.1, fun o s' hs => ih ?_⟩
    rw [hs] at h
    exact h.2

end IcecastCommon.Library
