import Mathlib.Logic.Function.Basic
import Mathlib.Tactic

/- The deadline of a timed wait. The clock is read, the milliseconds are added as nanoseconds and
   whole seconds are carried over. The product is one of two `int`s, so it wraps at 2^32 before it
   is added to the wider field; everything after it is 64 bits wide. -/
namespace IcecastCommon.Thread

/-- A `struct timespec`. -/
structure Timespec where
  tv_sec : BitVec 64
  tv_nsec : BitVec 64
deriving DecidableEq, Repr

namespace Timespec

@[simp] theorem mk_tv_sec (sec nsec : BitVec 64) : (mk sec nsec).tv_sec = sec := rfl

@[simp] theorem mk_tv_nsec (sec nsec : BitVec 64) : (mk sec nsec).tv_nsec = nsec := rfl

/-- The nanoseconds are less than a second. -/
def Normalised (t : Timespec) : Prop :=
  0 ≤ t.tv_nsec.toInt ∧ t.tv_nsec.toInt < 1000000000

instance (t : Timespec) : Decidable t.Normalised := by
  unfold Normalised
  infer_instance

/-- The time in nanoseconds. -/
def nanoseconds (t : Timespec) : Int :=
  t.tv_sec.toInt * 1000000000 + t.tv_nsec.toInt

end Timespec

/-- A call into the thread library. -/
inductive PthreadCall
  | mutexLock
  | condTimedwait (abstime : Timespec)
  | mutexUnlock
deriving DecidableEq, Repr

/-- `time.tv_nsec += millis*1000000`. -/
def addMillis (time : Timespec) (millis : BitVec 32) : Timespec :=
  { time with tv_nsec := time.tv_nsec + (millis * 1000000#32).signExtend 64 }

/-- `extra` seconds go from the nanoseconds to the seconds. -/
def carryOver (time : Timespec) (extra : BitVec 64) : Timespec :=
  { tv_sec := time.tv_sec + extra
    tv_nsec := time.tv_nsec - extra * 1000000000#64 }

/-- The deadline, from the time that the clock gives. -/
def deadline (now : Timespec) (millis : BitVec 32) : Timespec :=
  let time := addMillis now millis
  if (1000000000#64).sle time.tv_nsec then
    carryOver time (time.tv_nsec.sdiv 1000000000#64)
  else time

/-- `thread_cond_timedwait_c`, where `clock_gettime` gives `time`. -/
def threadCondTimedwait (time : Timespec) (millis : BitVec 32) : List PthreadCall :=
  [.mutexLock, .condTimedwait (deadline time millis), .mutexUnlock]

/-! What is added, as an integer. -/

/-- The product as the code forms it. -/
def addend (millis : BitVec 32) : Int :=
  (millis.toInt * 1000000).bmod (2 ^ 32)

theorem addend_range (millis : BitVec 32) : -2147483648 ≤ addend millis ∧ addend millis < 2147483648 := by
  have hlow := Int.le_bmod (x := millis.toInt * 1000000) (m := 2 ^ 32) (by decide)
  have hhigh := Int.bmod_lt (x := millis.toInt * 1000000) (m := 2 ^ 32) (by decide)
  unfold addend
  omega

/-- It is off by a multiple of 2^32. -/
theorem addend_wraps (millis : BitVec 32) :
    ∃ k : Int, addend millis = millis.toInt * 1000000 - k * 4294967296 := by
  have hmod := Int.bmod_eq_self_sub_bdiv_mul (millis.toInt * 1000000) (2 ^ 32)
  refine ⟨(millis.toInt * 1000000).bdiv (2 ^ 32), ?_⟩
  unfold addend
  omega

/-- It is the product where that fits an `int`. -/
theorem addend_exact (millis : BitVec 32) (h : 0 ≤ millis.toInt) :
    addend millis = millis.toInt * 1000000 ↔ millis.toInt ≤ 2147 := by
  have hlow := BitVec.toInt_lt (x := millis)
  unfold addend
  rw [Int.bmod_def]
  split <;> omega

section
variable {time : Timespec} {millis : BitVec 32}

theorem addMillis_toInt (h : time.Normalised) :
    (addMillis time millis).tv_nsec.toInt = time.tv_nsec.toInt + addend millis := by
  have hrange := addend_range millis
  have hsum : (millis * 1000000#32).toInt = addend millis := BitVec.toInt_mul ..
  rw [addMillis, Timespec.mk_tv_nsec, BitVec.toInt_add, BitVec.toInt_signExtend_of_le (by decide), hsum]
  obtain ⟨hlow, hhigh⟩ := h
  exact Int.bmod_eq_of_le (by omega) (by omega)

theorem carryOver_toInt (extra : BitVec 64) (hlow : 0 ≤ extra.toInt)
    (hhigh : extra.toInt * 1000000000 ≤ time.tv_nsec.toInt) :
    (carryOver time extra).tv_nsec.toInt = time.tv_nsec.toInt - extra.toInt * 1000000000 := by
  have hsec : (1000000000#64).toInt = 1000000000 := by decide
  have hlt := BitVec.toInt_lt (x := time.tv_nsec)
  have hwhole : (extra.toInt * 1000000000).bmod (2 ^ 64) = extra.toInt * 1000000000 :=
    Int.bmod_eq_of_le (by omega) (by omega)
  rw [carryOver, Timespec.mk_tv_nsec, BitVec.toInt_sub, BitVec.toInt_mul, hsec, hwhole]
  exact Int.bmod_eq_of_le (by omega) (by omega)

/-- The seconds that are carried over. -/
def carry (time : Timespec) (millis : BitVec 32) : Int :=
  if 1000000000 ≤ time.tv_nsec.toInt + addend millis then
    (time.tv_nsec.toInt + addend millis) / 1000000000
  else 0

theorem carry_range (h : time.Normalised) : 0 ≤ carry time millis ∧ carry time millis ≤ 3 := by
  have hrange := addend_range millis
  obtain ⟨hlow, hhigh⟩ := h
  unfold carry
  split <;> omega

theorem carry_div (h : time.Normalised) (hadd : 0 ≤ addend millis) :
    carry time millis = (time.tv_nsec.toInt + addend millis) / 1000000000 := by
  obtain ⟨hlow, hhigh⟩ := h
  unfold carry
  split <;> omega

/-- The deadline as integers. -/
theorem deadline_toInt (h : time.Normalised) :
    (deadline time millis).tv_sec.toInt = (time.tv_sec.toInt + carry time millis).bmod (2 ^ 64) ∧
      (deadline time millis).tv_nsec.toInt =
        time.tv_nsec.toInt + addend millis - carry time millis * 1000000000 := by
  have hrange := addend_range millis
  have hsum := @addMillis_toInt _ millis h
  have hsec : (1000000000#64).toInt = 1000000000 := by decide
  obtain ⟨hlow, hhigh⟩ := h
  by_cases hge : 1000000000 ≤ time.tv_nsec.toInt + addend millis
  · have hsle : (1000000000#64).sle (addMillis time millis).tv_nsec := by
      rwa [BitVec.sle_iff_toInt_le, hsec, hsum]
    have hextra : ((addMillis time millis).tv_nsec.sdiv 1000000000#64).toInt =
        (time.tv_nsec.toInt + addend millis) / 1000000000 := by
      rw [BitVec.toInt_sdiv_of_ne_or_ne _ _ (Or.inr (by decide)), hsum, hsec,
        Int.tdiv_eq_ediv_of_nonneg (by omega)]
    have hdeadline : deadline time millis =
        carryOver (addMillis time millis) ((addMillis time millis).tv_nsec.sdiv 1000000000#64) :=
      if_pos hsle
    have hcarry : carry time millis = (time.tv_nsec.toInt + addend millis) / 1000000000 := if_pos hge
    rw [hdeadline, hcarry]
    constructor
    · rw [carryOver, Timespec.mk_tv_sec, BitVec.toInt_add, hextra, addMillis, Timespec.mk_tv_sec]
    · rw [carryOver_toInt _ (by omega) (by omega), hextra, hsum]
  · have hsle : ¬(1000000000#64).sle (addMillis time millis).tv_nsec := by
      rwa [BitVec.sle_iff_toInt_le, hsec, hsum]
    have hsecLow := BitVec.le_toInt (x := time.tv_sec)
    have hsecHigh := BitVec.toInt_lt (x := time.tv_sec)
    have hdeadline : deadline time millis = addMillis time millis := if_neg hsle
    have hcarry : carry time millis = 0 := if_neg hge
    rw [hdeadline, hcarry]
    constructor
    · rw [addMillis, Timespec.mk_tv_sec, Int.add_zero, Int.bmod_eq_of_le (by omega) (by omega)]
    · rw [hsum, Int.zero_mul, Int.sub_zero]

/-- `tv_sec` wraps at 2^64. -/
theorem tv_sec_wraps (h : time.Normalised) :
    ∃ k : Int, (deadline time millis).tv_sec.toInt =
      time.tv_sec.toInt + carry time millis - k * 18446744073709551616 := by
  have hmod := Int.bmod_eq_self_sub_bdiv_mul (time.tv_sec.toInt + carry time millis) (2 ^ 64)
  refine ⟨(time.tv_sec.toInt + carry time millis).bdiv (2 ^ 64), ?_⟩
  rw [(deadline_toInt h).1]
  omega

/-- It does not wrap where the sum fits. -/
theorem tv_sec_exact (h : time.Normalised) :
    (deadline time millis).tv_sec.toInt = time.tv_sec.toInt + carry time millis ↔
      time.tv_sec.toInt + carry time millis < 9223372036854775808 := by
  have hlow := BitVec.le_toInt (x := time.tv_sec)
  have hcarry := @carry_range _ millis h
  rw [(deadline_toInt h).1]
  constructor
  · intro heq
    have hlt := Int.bmod_lt (x := time.tv_sec.toInt + carry time millis) (m := 2 ^ 64) (by decide)
    omega
  · intro hlt
    exact Int.bmod_eq_of_le (by omega) (by omega)

/-- The deadline is `millis` milliseconds behind the clock reading. -/
def Exact (time : Timespec) (millis : BitVec 32) (abstime : Timespec) : Prop :=
  abstime.Normalised ∧ abstime.nanoseconds = time.nanoseconds + millis.toInt * 1000000

/-- The second of the deadline. -/
def lastSecond (time : Timespec) (millis : BitVec 32) : Int :=
  time.tv_sec.toInt + (time.tv_nsec.toInt + millis.toInt * 1000000) / 1000000000

/-- The distance of the deadline from the one that is wanted, as it comes from the two wraps. -/
theorem nanoseconds_off (h : time.Normalised) :
    ∃ j k : Int, (deadline time millis).nanoseconds =
        time.nanoseconds + millis.toInt * 1000000 - k * 4294967296 - j * 18446744073709551616 * 1000000000 ∧
      addend millis = millis.toInt * 1000000 - k * 4294967296 ∧
      (deadline time millis).tv_sec.toInt =
        time.tv_sec.toInt + carry time millis - j * 18446744073709551616 := by
  obtain ⟨k, hk⟩ := addend_wraps millis
  obtain ⟨j, hj⟩ := @tv_sec_wraps _ millis h
  refine ⟨j, k, ?_, hk, hj⟩
  unfold Timespec.nanoseconds
  rw [(deadline_toInt h).2, hj, hk]
  omega

/-- An exact deadline has come without a wrap: the two cannot make up for each other. -/
theorem exact_without_wrap (h : time.Normalised) (hmillis : 0 ≤ millis.toInt)
    (hexact : Exact time millis (deadline time millis)) :
    addend millis = millis.toInt * 1000000 ∧
      (deadline time millis).tv_sec.toInt = time.tv_sec.toInt + carry time millis := by
  have hint := BitVec.toInt_lt (x := millis)
  have hrange := addend_range millis
  obtain ⟨j, k, hoff, hk, hj⟩ := @nanoseconds_off _ millis h
  have hsame : k * 4294967296 + j * 18446744073709551616 * 1000000000 = 0 := by
    have hwant := hexact.2
    omega
  have hzero : j = 0 ∧ k = 0 := by omega
  rw [hzero.2] at hk
  rw [hzero.1] at hj
  constructor
  · omega
  · omega

/-- A deadline without a wrap is normalised and exact. -/
theorem without_wrap_exact (h : time.Normalised) (hadd : addend millis = millis.toInt * 1000000)
    (hmillis : 0 ≤ millis.toInt)
    (hsec : (deadline time millis).tv_sec.toInt = time.tv_sec.toInt + carry time millis) :
    Exact time millis (deadline time millis) := by
  have hcarry := @carry_div _ millis h (by omega)
  have hnsec := (@deadline_toInt _ millis h).2
  constructor
  · unfold Timespec.Normalised
    rw [hnsec, hcarry]
    omega
  · unfold Timespec.nanoseconds
    rw [hnsec, hsec, hadd]
    omega

end

/-- The deadline that is passed on is normalised and exact where the product fits an `int`, which
    is up to 2147 milliseconds, and the second fits the `time_t`. -/
theorem deadline_exact (time : Timespec) (millis : BitVec 32) (h : time.Normalised)
    (hmillis : 0 ≤ millis.toInt) :
    (∀ abstime, .condTimedwait abstime ∈ threadCondTimedwait time millis → Exact time millis abstime) ↔
      millis.toInt ≤ 2147 ∧ lastSecond time millis < 9223372036854775808 := by
  have hpassed : (∀ abstime, .condTimedwait abstime ∈ threadCondTimedwait time millis →
      Exact time millis abstime) ↔ Exact time millis (deadline time millis) := by
    simp [threadCondTimedwait]
  have hlast (hadd : addend millis = millis.toInt * 1000000) :
      lastSecond time millis = time.tv_sec.toInt + carry time millis := by
    rw [lastSecond, carry_div h (by omega), hadd]
  rw [hpassed, ← addend_exact millis hmillis]
  constructor
  · intro hexact
    obtain ⟨hadd, hsec⟩ := exact_without_wrap h hmillis hexact
    refine ⟨hadd, ?_⟩
    rw [hlast hadd]
    exact (tv_sec_exact h).1 hsec
  · rintro ⟨hadd, hfits⟩
    rw [hlast hadd] at hfits
    exact without_wrap_exact h hadd hmillis ((tv_sec_exact h).2 hfits)

/-- Half a second from the middle of one goes over to the next second. -/
theorem deadline_exact_half :
    (∀ abstime, .condTimedwait abstime ∈ threadCondTimedwait ⟨1000#64, 700000000#64⟩ 500#32 →
      Exact ⟨1000#64, 700000000#64⟩ 500#32 abstime) ∧
    deadline ⟨1000#64, 700000000#64⟩ 500#32 = ⟨1001#64, 200000000#64⟩ :=
  ⟨(deadline_exact ⟨1000#64, 700000000#64⟩ 500#32 (by decide) (by decide)).2 (by decide), by decide⟩

/-- The deadline of three seconds and a half has negative nanoseconds. -/
theorem deadline_negative :
    ¬∀ abstime, .condTimedwait abstime ∈ threadCondTimedwait ⟨1000#64, 0#64⟩ 3500#32 →
      Exact ⟨1000#64, 0#64⟩ 3500#32 abstime := by
  intro hexact
  have hpassed : .condTimedwait ⟨1000#64, BitVec.ofInt 64 (-794967296)⟩ ∈
      threadCondTimedwait ⟨1000#64, 0#64⟩ 3500#32 := by decide
  obtain ⟨hlow, -⟩ := (hexact _ hpassed).1
  exact absurd hlow (by decide)

end IcecastCommon.Thread
