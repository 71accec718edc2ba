import Mathlib.Data.List.Nodup
import Mathlib.Data.List.Perm.Basic

/- Handles that are given out, used and released. To use or to release one that is not held is a
   fault. `Owns own ds own'` says what deeds make of the handles in `own`, whatever else is held; it
   composes, and comes with its frame. -/
namespace IcecastCommon.Library

/-- What is done with a handle. -/
inductive Deed (α : Type) where
  | acquire (a : α)
  | use (a : α)
  | release (a : α)
deriving DecidableEq, Repr

variable {α : Type}

/-- The handles held are those in `own` and those in `rest`, each once. -/
structure Split (held own rest : List α) : Prop where
  perm : held.Perm (own ++ rest)
  once : held.Nodup

theorem Split.mem {held own rest : List α} {a : α} (S : Split held own rest) (h : a ∈ own) : a ∈ held :=
  S.perm.mem_iff.mpr (List.mem_append_left rest h)

variable [DecidableEq α]

/-- The handles that are held after some deeds, or a fault. -/
def deeds : List α → List (Deed α) → Option (List α)
  | held, [] => some held
  | held, .acquire a :: ds => deeds (a :: held) ds
  | held, .use a :: ds => if a ∈ held then deeds held ds else none
  | held, .release a :: ds => if a ∈ held then deeds (held.erase a) ds else none

/-- No handle is given out while it is held. -/
def Given : List α → List (Deed α) → Prop
  | _, [] => True
  | held, .acquire a :: ds => a ∉ held ∧ Given (a :: held) ds
  | held, .use _ :: ds => Given held ds
  | held, .release a :: ds => Given (held.erase a) ds

instance decidableGiven : (held : List α) → (ds : List (Deed α)) → Decidable (Given held ds)
  | _, [] => .isTrue trivial
  | held, .acquire a :: ds =>
    have := decidableGiven (a :: held) ds
    inferInstanceAs (Decidable (a ∉ held ∧ Given (a :: held) ds))
  | held, .use _ :: ds => decidableGiven held ds
  | held, .release a :: ds => decidableGiven (held.erase a) ds

/-- The deeds turn the handles `own` into `own'` and touch no others. -/
def Owns (own : List α) (ds : List (Deed α)) (own' : List α) : Prop :=
  ∀ held rest ds', Split held own rest → Given held (ds ++ ds') →
    ∃ held', deeds held (ds ++ ds') = deeds held' ds' ∧ Given held' ds' ∧ Split held' own' rest

theorem Owns.nil (own : List α) : Owns own [] own := fun held _ _ S G => ⟨held, rfl, G, S⟩

theorem Owns.append {own own' own'' : List α} {ds ds' : List (Deed α)} (h : Owns own ds own')
    (h' : Owns own' ds' own'') : Owns own (ds ++ ds') own'' := by
  intro held rest es S G
  rw [List.append_assoc] at G ⊢
  obtain ⟨mid, hmid, G', S'⟩ := h held rest (ds' ++ es) S G
  obtain ⟨held', hheld, G'', S''⟩ := h' mid rest es S' G'
  exact ⟨held', hmid.trans hheld, G'', S''⟩

theorem Owns.acquire (own : List α) (a : α) : Owns own [.acquire a] (a :: own) := by
  intro held rest ds S G
  exact ⟨a :: held, rfl, G.2, S.perm.cons a, List.nodup_cons.mpr ⟨G.1, S.once⟩⟩

theorem Owns.use {own : List α} {a : α} (h : a ∈ own) : Owns own [.use a] own := by
  intro held rest ds S G
  exact ⟨held, if_pos (S.mem h), G, S⟩

theorem Owns.release (own : List α) (a : α) : Owns (a :: own) [.release a] own := by
  intro held rest ds S G
  refine ⟨held.erase a, if_pos (S.mem List.mem_cons_self), G, ?_, S.once.erase a⟩
  have hperm := S.perm.erase a
  rwa [List.cons_append, List.erase_cons_head] at hperm

/-- What else is held makes no difference. -/
theorem Owns.frame {own own' : List α} {ds : List (Deed α)} (h : Owns own ds own') (more : List α) :
    Owns (own ++ more) ds (own' ++ more) := by
  intro held rest es S G
  obtain ⟨held', hheld, G', S'⟩ := h held (more ++ rest) es ⟨by simpa using S.perm, S.once⟩ G
  exact ⟨held', hheld, G', by simpa using S'.perm, S'.once⟩

/-- Only which handles are owned counts. -/
theorem Owns.perm {own own' mine mine' : List α} {ds : List (Deed α)} (h : Owns own ds own')
    (hown : mine.Perm own) (hown' : own'.Perm mine') : Owns mine ds mine' := by
  intro held rest es S G
  obtain ⟨held', hheld, G', S'⟩ := h held rest es ⟨S.perm.trans (hown.append_right rest), S.once⟩ G
  exact ⟨held', hheld, G', S'.perm.trans (hown'.append_right rest), S'.once⟩

/-- Deeds that own all there is. -/
theorem Owns.all {own own' held : List α} {ds : List (Deed α)} (h : Owns own ds own') (hperm : held.Perm own)
    (honce : held.Nodup) (G : Given held ds) :
    ∃ held', deeds held ds = some held' ∧ held'.Perm own' ∧ held'.Nodup := by
  have S : Split held own [] := ⟨by rwa [List.append_nil], honce⟩
  obtain ⟨held', hheld, _, S'⟩ := h held [] [] S (by rwa [List.append_nil])
  rw [List.append_nil] at hheld
  exact ⟨held', hheld, by simpa using S'.perm, S'.once⟩

end IcecastCommon.Library
