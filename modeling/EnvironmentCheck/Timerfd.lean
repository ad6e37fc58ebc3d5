import EnvironmentCheck.TimePoint
import Mathlib.Tactic.NormNum
import Mathlib.Tactic.Ring

namespace EnvironmentCheck

/-- The fields of a `timespec`, for a `time_t` of `w` bits. -/
structure Timespec (w : ℕ) where
  tvSec : BitVec w
  tvNsec : BitVec w

structure Itimerspec (w : ℕ) where
  itInterval : Timespec w
  itValue : Timespec w

namespace Timespec

variable {w : ℕ}

def nanos (ts : Timespec w) : ℤ := ts.tvSec.toInt * 1000000000 + ts.tvNsec.toInt

structure Valid (ts : Timespec w) : Prop where
  sec : 0 ≤ ts.tvSec.toInt
  nsec : 0 ≤ ts.tvNsec.toInt ∧ ts.tvNsec.toInt < 1000000000

end Timespec

/-- The time of the expiry after `k` others. A value of zero disarms the timer, an interval of zero
makes it expire once. -/
def Itimerspec.expiry {w : ℕ} (spec : Itimerspec w) (k : ℕ) : Option ℤ :=
  if spec.itValue.nanos = 0 then none
  else if k = 0 then some spec.itValue.nanos
  else if spec.itInterval.nanos = 0 then none
  else some (spec.itValue.nanos + k * spec.itInterval.nanos)

def nsecPerSec : UInt64 := 1000000000

def timerRearm (w : ℕ) (timePoint : TimePoint) : Itimerspec w :=
  let nanoSecs : UInt64 := timePoint.toEpochDelta.toNanoseconds.toUInt64
  let nanoSecs := if nanoSecs < 1 then 1 else nanoSecs
  let itValue : Timespec w :=
    ⟨.ofNat w (nanoSecs / nsecPerSec).toNat, .ofNat w (nanoSecs % nsecPerSec).toNat⟩
  ⟨itValue, itValue⟩

/-- What `nano_secs` is when it is split. -/
def rearmNanos (timePoint : TimePoint) : ℕ := max 1 (timePoint.ticks.toInt % 2 ^ 64).toNat

def toTimespec (w n : ℕ) : Timespec w := ⟨.ofNat w (n / 1000000000), .ofNat w (n % 1000000000)⟩

inductive TimeT
  | bits32
  | bits64

def TimeT.width : TimeT → ℕ
  | .bits32 => 32
  | .bits64 => 64

variable {w : ℕ} {timePoint : TimePoint}

structure ArmsFirst (spec : Itimerspec w) (timePoint : TimePoint) : Prop where
  valid : spec.itValue.Valid
  armed : spec.itValue.nanos ≠ 0
  value : spec.itValue.nanos = max 1 timePoint.ticks.toInt

structure ArmsOnce (spec : Itimerspec w) (timePoint : TimePoint) : Prop
    extends ArmsFirst spec timePoint where
  once : ∀ k, 0 < k → spec.expiry k = none

/-- On a 32-bit `time_t` a few times below zero wrap to one nanosecond. -/
def FirstRight : TimeT → TimePoint → Prop
  | .bits32, t => (0 ≤ t.ticks.toInt ∧ t.ticks.toInt < 2 ^ 31 * 1000000000) ∨
      (t.ticks.toInt < 0 ∧ (2 ^ 64 + t.ticks.toInt) % (2 ^ 32 * 1000000000) = 1)
  | .bits64, t => 0 ≤ t.ticks.toInt

theorem toNat_toUInt64 (x : Int64) : x.toUInt64.toNat = (x.toInt % 2 ^ 64).toNat := by
  rw [← Int64.toNat_toBitVec, ← Int64.toInt_toBitVec, BitVec.toInt_eq_toNat_bmod]
  have hemod := Int.bmod_emod (x := x.toBitVec.toNat) (m := 2 ^ 64)
  have hlt := x.toBitVec.isLt
  omega

theorem timerRearm_eq (w : ℕ) (timePoint : TimePoint) : timerRearm w timePoint =
    ⟨toTimespec w (rearmNanos timePoint), toTimespec w (rearmNanos timePoint)⟩ := by
  have hnat := toNat_toUInt64 timePoint.ticks
  have hnanos : ∀ n : UInt64, n.toNat = rearmNanos timePoint →
      (n / nsecPerSec).toNat = rearmNanos timePoint / 1000000000 ∧
        (n % nsecPerSec).toNat = rearmNanos timePoint % 1000000000 := by
    intro n hn
    rw [UInt64.toNat_div, UInt64.toNat_mod, hn]
    exact ⟨rfl, rfl⟩
  unfold timerRearm TimePoint.toEpochDelta TimeDelta.toNanoseconds
  dsimp only
  rw [rearmNanos, ← hnat] at hnanos
  rw [rearmNanos, ← hnat]
  split_ifs with h
  · have hzero : timePoint.ticks.toUInt64.toNat < 1 := UInt64.lt_iff_toNat_lt.mp h
    obtain ⟨hdiv, hmod⟩ := hnanos 1 (by rw [UInt64.toNat_one]; omega)
    rw [hdiv, hmod, toTimespec]
  · have hpos : ¬ timePoint.ticks.toUInt64.toNat < 1 := fun hlt => h (UInt64.lt_iff_toNat_lt.mpr hlt)
    obtain ⟨hdiv, hmod⟩ := hnanos timePoint.ticks.toUInt64 (by omega)
    rw [hdiv, hmod, toTimespec]

theorem rearmNanos_cases (timePoint : TimePoint) :
    (0 ≤ timePoint.ticks.toInt ∧ (rearmNanos timePoint : ℤ) = max 1 timePoint.ticks.toInt) ∨
      (timePoint.ticks.toInt < 0 ∧ (rearmNanos timePoint : ℤ) = 2 ^ 64 + timePoint.ticks.toInt) := by
  have hlt := timePoint.ticks.toInt_lt
  have hle := timePoint.ticks.le_toInt
  unfold rearmNanos
  omega

theorem toInt_tvNsec (h : 32 ≤ w) (n : ℕ) : (toTimespec w n).tvNsec.toInt = (n % 1000000000 : ℕ) := by
  have hlt : n % 1000000000 < 1000000000 := Nat.mod_lt _ (by decide)
  have hpow : (2 : ℤ) ^ 32 ≤ 2 ^ w := pow_le_pow_right₀ (by decide) h
  rw [toTimespec, BitVec.toInt_ofNat']
  apply Int.bmod_eq_of_le <;> push_cast <;> omega

theorem toInt_tvSec (w n : ℕ) :
    (toTimespec w n).tvSec.toInt = ((n / 1000000000 : ℕ) : ℤ).bmod (2 ^ w) := by
  rw [toTimespec, BitVec.toInt_ofNat']

theorem valid_iff (h : 32 ≤ w) (n : ℕ) :
    (toTimespec w n).Valid ↔ 0 ≤ ((n / 1000000000 : ℕ) : ℤ).bmod (2 ^ w) := by
  constructor
  · intro hvalid
    rw [← toInt_tvSec]
    exact hvalid.sec
  · intro hsec
    refine ⟨by rwa [toInt_tvSec], ?_⟩
    rw [toInt_tvNsec h]
    omega

theorem nanos_toTimespec (h : 32 ≤ w) (n : ℕ) : (toTimespec w n).nanos =
    ((n / 1000000000 : ℕ) : ℤ).bmod (2 ^ w) * 1000000000 + (n % 1000000000 : ℕ) := by
  rw [Timespec.nanos, toInt_tvNsec h, toInt_tvSec]

theorem armsFirst_iff (h : 32 ≤ w) : ArmsFirst (timerRearm w timePoint) timePoint ↔
    0 ≤ ((rearmNanos timePoint / 1000000000 : ℕ) : ℤ).bmod (2 ^ w) ∧
      ((rearmNanos timePoint / 1000000000 : ℕ) : ℤ).bmod (2 ^ w) * 1000000000 +
        (rearmNanos timePoint % 1000000000 : ℕ) = max 1 timePoint.ticks.toInt := by
  rw [timerRearm_eq]
  constructor
  · rintro ⟨hvalid, -, hvalue⟩
    rw [nanos_toTimespec h] at hvalue
    exact ⟨(valid_iff h _).mp hvalid, hvalue⟩
  · rintro ⟨hsec, hvalue⟩
    rw [← nanos_toTimespec h] at hvalue
    refine ⟨(valid_iff h _).mpr hsec, ?_, hvalue⟩
    have hpos : 0 < max 1 timePoint.ticks.toInt := by omega
    rw [hvalue]
    exact hpos.ne'

theorem armsFirst_bits64 (timePoint : TimePoint) :
    ArmsFirst (timerRearm 64 timePoint) timePoint ↔ 0 ≤ timePoint.ticks.toInt := by
  have hlt := timePoint.ticks.toInt_lt
  have hle := timePoint.ticks.le_toInt
  have hcases := rearmNanos_cases timePoint
  have hbmod : ((rearmNanos timePoint / 1000000000 : ℕ) : ℤ).bmod (2 ^ 64) =
      (rearmNanos timePoint / 1000000000 : ℕ) := by
    apply Int.bmod_eq_of_le <;> omega
  rw [armsFirst_iff (by decide), hbmod]
  constructor
  · rintro ⟨-, hvalue⟩
    omega
  · intro hnonneg
    exact ⟨Int.natCast_nonneg _, by omega⟩

theorem armsFirst_bits32 (timePoint : TimePoint) :
    ArmsFirst (timerRearm 32 timePoint) timePoint ↔ FirstRight .bits32 timePoint := by
  have hlt := timePoint.ticks.toInt_lt
  have hcases := rearmNanos_cases timePoint
  rw [armsFirst_iff (by decide), FirstRight, Int.bmod_def]
  split_ifs with hsmall
  · omega
  · omega

theorem expiry_timerRearm (h : (timerRearm w timePoint).itValue.nanos ≠ 0) (k : ℕ) :
    (timerRearm w timePoint).expiry k = some ((k + 1) * (timerRearm w timePoint).itValue.nanos) := by
  have hsame : (timerRearm w timePoint).itInterval = (timerRearm w timePoint).itValue := rfl
  rw [Itimerspec.expiry, hsame, if_neg h, if_neg h]
  split_ifs with hk
  · simp [hk]
  · congr 1
    ring

theorem timerRearm_never_once (timeT : TimeT) (timePoint : TimePoint) :
    ¬ ArmsOnce (timerRearm timeT.width timePoint) timePoint ∧
      (ArmsFirst (timerRearm timeT.width timePoint) timePoint ↔ FirstRight timeT timePoint) ∧
      (FirstRight timeT timePoint → ∀ k, (timerRearm timeT.width timePoint).expiry k =
        some ((k + 1) * max 1 timePoint.ticks.toInt)) := by
  have hfirst : ArmsFirst (timerRearm timeT.width timePoint) timePoint ↔ FirstRight timeT timePoint := by
    cases timeT with
    | bits32 => exact armsFirst_bits32 timePoint
    | bits64 => exact armsFirst_bits64 timePoint
  refine ⟨fun h => ?_, hfirst, fun h k => ?_⟩
  · have hagain := h.once 1 one_pos
    rw [expiry_timerRearm h.armed] at hagain
    cases hagain
  · have harms := hfirst.mpr h
    rw [expiry_timerRearm harms.armed, harms.value]

theorem timerRearm_again : ¬ ArmsOnce (timerRearm 64 ⟨5000000000⟩) ⟨5000000000⟩ ∧
    (timerRearm 64 ⟨5000000000⟩).expiry 0 = some 5000000000 ∧
      (timerRearm 64 ⟨5000000000⟩).expiry 1 = some 10000000000 := by
  refine ⟨fun h => ?_, by decide, by decide⟩
  have hagain := h.once 1 one_pos
  revert hagain
  decide

end EnvironmentCheck
