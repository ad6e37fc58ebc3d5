import EnvironmentCheck.Timerfd

namespace EnvironmentCheck

/-- The nanoseconds are less than a second; the seconds may be negative. -/
def Timespec.Normal {w : ℕ} (ts : Timespec w) : Prop :=
  0 ≤ ts.tvNsec.toInt ∧ ts.tvNsec.toInt < 1000000000

instance {w : ℕ} (ts : Timespec w) : Decidable ts.Normal :=
  inferInstanceAs (Decidable (0 ≤ ts.tvNsec.toInt ∧ ts.tvNsec.toInt < 1000000000))

namespace TimeDelta

def InInt64 (n : ℤ) : Prop := -2 ^ 63 ≤ n ∧ n < 2 ^ 63

instance (n : ℤ) : Decidable (InInt64 n) := inferInstanceAs (Decidable (-2 ^ 63 ≤ n ∧ n < 2 ^ 63))

/-- The result of signed arithmetic; an overflow has none. -/
def checked (n : ℤ) : Option Int64 := if InInt64 n then some (.ofInt n) else none

def fromNanoseconds (nanos : Int64) : TimeDelta := ⟨nanos⟩

def fromMicroseconds (micros : Int64) : Option TimeDelta :=
  (checked (micros.toInt * 1000)).map fromNanoseconds

def fromMilliseconds (millis : Int64) : Option TimeDelta :=
  (checked (millis.toInt * 1000)).bind fromMicroseconds

def fromSeconds (seconds : Int64) : Option TimeDelta :=
  (checked (seconds.toInt * 1000)).bind fromMilliseconds

def toMicroseconds (d : TimeDelta) : Int64 := d.toNanoseconds / 1000

def toMilliseconds (d : TimeDelta) : Int64 := d.toMicroseconds / 1000

def toSeconds (d : TimeDelta) : Int64 := d.toMilliseconds / 1000

def add (a b : TimeDelta) : Option TimeDelta :=
  (checked (a.delta.toInt + b.delta.toInt)).map fromNanoseconds

def fromTimespec (ts : Timespec 64) : Option TimeDelta := do
  let seconds ← fromSeconds (.ofBitVec ts.tvSec)
  seconds.add (fromNanoseconds (.ofBitVec ts.tvNsec))

def kNanosecondsPerSecond : Int64 := 1000000000

def toTimespec (d : TimeDelta) : Timespec 64 where
  tvSec := d.toSeconds.toBitVec
  tvNsec := (d.delta % kNanosecondsPerSecond).toBitVec

variable {d : TimeDelta} {ts : Timespec 64} {n : ℤ}

theorem toInt_ofInt (h : InInt64 n) : (Int64.ofInt n).toInt = n :=
  Int64.toInt_ofInt_of_le h.1 h.2

theorem inInt64 (d : TimeDelta) : InInt64 d.delta.toInt := ⟨d.delta.le_toInt, d.delta.toInt_lt⟩

theorem checked_mul (n : ℤ) :
    (checked n).bind (fun a => checked (a.toInt * 1000)) = checked (n * 1000) := by
  by_cases h : InInt64 n
  · rw [checked, if_pos h, Option.bind_some, toInt_ofInt h]
  · have hmul : ¬ InInt64 (n * 1000) := by
      unfold InInt64 at h ⊢
      omega
    rw [checked, if_neg h, Option.bind_none, checked, if_neg hmul]

theorem fromSeconds_eq (seconds : Int64) :
    fromSeconds seconds = (checked (seconds.toInt * 1000000000)).map fromNanoseconds := by
  have hmul : seconds.toInt * 1000000000 = seconds.toInt * 1000 * 1000 * 1000 := by ring
  have hmicros : fromMicroseconds = fun micros : Int64 =>
      (checked (micros.toInt * 1000)).map fromNanoseconds := rfl
  have hmillis : fromMilliseconds = fun millis : Int64 =>
      (checked (millis.toInt * 1000)).bind fromMicroseconds := rfl
  rw [hmul, ← checked_mul, ← checked_mul, fromSeconds, hmillis, hmicros]
  simp only [Option.map_bind, Option.bind_assoc, Function.comp_def]

theorem checked_eq_some : (checked n).map fromNanoseconds = some d ↔ d.delta.toInt = n := by
  by_cases h : InInt64 n
  · rw [checked, if_pos h, Option.map_some, Option.some_inj]
    constructor
    · rintro rfl
      exact toInt_ofInt h
    · intro hd
      have hdelta : d.delta = .ofInt n := Int64.toInt_inj.mp (hd.trans (toInt_ofInt h).symm)
      rw [← hdelta]
      rfl
  · rw [checked, if_neg h, Option.map_none]
    refine iff_of_false (Option.some_ne_none d).symm fun hd => ?_
    rw [← hd] at h
    exact h (inInt64 d)

theorem fromTimespec_eq_some :
    fromTimespec ts = some d ↔ InInt64 (ts.tvSec.toInt * 1000000000) ∧ d.delta.toInt = ts.nanos := by
  unfold fromTimespec
  rw [fromSeconds_eq, Int64.toInt_ofBitVec]
  by_cases h : InInt64 (ts.tvSec.toInt * 1000000000)
  · rw [checked, if_pos h, Option.map_some]
    have hsum : add (fromNanoseconds (.ofInt (ts.tvSec.toInt * 1000000000)))
        (fromNanoseconds (.ofBitVec ts.tvNsec)) = (checked ts.nanos).map fromNanoseconds := by
      rw [add, fromNanoseconds, fromNanoseconds, toInt_ofInt h, Int64.toInt_ofBitVec, Timespec.nanos]
    exact (Eq.congr_left hsum).trans (checked_eq_some.trans (and_iff_right h).symm)
  · rw [checked, if_neg h]
    exact iff_of_false (Option.some_ne_none d).symm fun hd => h hd.1

/-- Three truncating divisions are one. -/
theorem tdiv_thousands (a : ℤ) : ((a.tdiv 1000).tdiv 1000).tdiv 1000 = a.tdiv 1000000000 := by
  have hnonneg (b : ℤ) (hb : 0 ≤ b) : ((b.tdiv 1000).tdiv 1000).tdiv 1000 = b.tdiv 1000000000 := by
    have hmicros : 0 ≤ b / 1000 := by omega
    have hmillis : 0 ≤ b / 1000 / 1000 := by omega
    rw [Int.tdiv_eq_ediv_of_nonneg hb, Int.tdiv_eq_ediv_of_nonneg hmicros,
      Int.tdiv_eq_ediv_of_nonneg hmillis, Int.tdiv_eq_ediv_of_nonneg hb]
    omega
  obtain ha | ha := le_total 0 a
  · exact hnonneg a ha
  · have hneg := hnonneg (-a) (by omega)
    simpa only [Int.neg_tdiv, neg_inj] using hneg

theorem toInt_toSeconds (d : TimeDelta) : d.toSeconds.toInt = d.delta.toInt.tdiv 1000000000 := by
  have hdiv (a : Int64) : (a / 1000).toInt = a.toInt.tdiv 1000 :=
    Int64.toInt_div_of_ne_right a 1000 (by decide)
  rw [toSeconds, toMilliseconds, toMicroseconds, toNanoseconds, hdiv, hdiv, hdiv, tdiv_thousands]

theorem toInt_tvSec (d : TimeDelta) :
    d.toTimespec.tvSec.toInt = d.delta.toInt.tdiv 1000000000 :=
  toInt_toSeconds d

theorem toInt_tvNsec (d : TimeDelta) :
    d.toTimespec.tvNsec.toInt = d.delta.toInt.tmod 1000000000 :=
  Int64.toInt_mod d.delta kNanosecondsPerSecond

theorem nanos_toTimespec (d : TimeDelta) : d.toTimespec.nanos = d.delta.toInt := by
  rw [Timespec.nanos, toInt_tvSec, toInt_tvNsec, Int.tdiv_mul_add_tmod]

theorem tmod_cases (a : ℤ) :
    0 ≤ a ∧ 0 ≤ a.tmod 1000000000 ∧ a.tmod 1000000000 < 1000000000 ∨
      a < 0 ∧ -1000000000 < a.tmod 1000000000 ∧ a.tmod 1000000000 ≤ 0 := by
  obtain ha | ha := le_or_gt 0 a
  · exact Or.inl ⟨ha, Int.tmod_nonneg _ ha, Int.tmod_lt_of_pos a (by decide)⟩
  · have hneg : a.tmod 1000000000 = -(-a).tmod 1000000000 := by rw [Int.neg_tmod, neg_neg]
    have hlow := Int.tmod_nonneg 1000000000 (show 0 ≤ -a by omega)
    have hhigh := Int.tmod_lt_of_pos (-a) (show (0 : ℤ) < 1000000000 by decide)
    exact Or.inr ⟨ha, by omega, by omega⟩

/-- The way back is never in doubt; the way there may give a negative part of a second. -/
theorem fromTimespec_toTimespec (d : TimeDelta) : fromTimespec d.toTimespec = some d := by
  refine fromTimespec_eq_some.mpr ⟨?_, (nanos_toTimespec d).symm⟩
  obtain ⟨hlow, hhigh⟩ := inInt64 d
  have hsum := Int.tdiv_mul_add_tmod d.delta.toInt 1000000000
  have hcases := tmod_cases d.delta.toInt
  rw [toInt_tvSec, InInt64]
  omega

theorem toTimespec_normal_iff (d : TimeDelta) :
    d.toTimespec.Normal ↔ 0 ≤ d.delta.toInt ∨ 1000000000 ∣ d.delta.toInt := by
  have hcases := tmod_cases d.delta.toInt
  rw [Timespec.Normal, toInt_tvNsec, Int.dvd_iff_tmod_eq_zero]
  omega

theorem toTimespec_eq_iff (hts : ts.Normal) (hd : d.delta.toInt = ts.nanos) :
    d.toTimespec = ts ↔ 0 ≤ ts.tvSec.toInt ∨ ts.tvNsec.toInt = 0 := by
  have hfields : d.toTimespec = ts ↔ d.delta.toInt.tdiv 1000000000 = ts.tvSec.toInt ∧
      d.delta.toInt.tmod 1000000000 = ts.tvNsec.toInt := by
    rw [← toInt_tvSec, ← toInt_tvNsec, BitVec.toInt_inj, BitVec.toInt_inj]
    obtain ⟨sec, nsec⟩ := ts
    exact Timespec.mk.injEq .. |>.to_iff
  have hcases := tmod_cases d.delta.toInt
  have hsum := Int.tdiv_mul_add_tmod d.delta.toInt 1000000000
  obtain ⟨hlow, hhigh⟩ := hts
  rw [hfields]
  rw [Timespec.nanos] at hd
  omega

theorem timespec_conversions_iff (d : TimeDelta) (ts : Timespec 64) (hts : ts.Normal)
    (hrange : InInt64 ts.nanos) :
    (d.toTimespec.Normal ∧ fromTimespec d.toTimespec = some d ↔
        0 ≤ d.delta.toInt ∨ 1000000000 ∣ d.delta.toInt) ∧
      ((∃ c, fromTimespec ts = some c ∧ c.toTimespec = ts) ↔
        0 ≤ ts.tvSec.toInt ∨ ts.tvNsec.toInt = 0) := by
  constructor
  · rw [toTimespec_normal_iff, and_iff_left (fromTimespec_toTimespec d)]
  · constructor
    · rintro ⟨c, hc, heq⟩
      exact (toTimespec_eq_iff hts (fromTimespec_eq_some.mp hc).2).mp heq
    · intro hsec
      have hnanos : (Int64.ofInt ts.nanos).toInt = ts.nanos := toInt_ofInt hrange
      refine ⟨⟨.ofInt ts.nanos⟩, fromTimespec_eq_some.mpr ⟨?_, hnanos⟩,
        (toTimespec_eq_iff hts hnanos).mpr hsec⟩
      obtain ⟨hlow, hhigh⟩ := hts
      rw [InInt64, Timespec.nanos] at hrange
      rw [InInt64]
      omega

theorem timespec_conversions_second :
    toTimespec ⟨1500000000⟩ = ⟨1, 500000000⟩ ∧
      (∃ c, fromTimespec ⟨1, 500000000⟩ = some c ∧ c.toTimespec = ⟨1, 500000000⟩) := by
  have h := timespec_conversions_iff ⟨1500000000⟩ ⟨1, 500000000⟩ (by decide) (by decide)
  exact ⟨rfl, h.2.mpr (Or.inl (by decide))⟩

theorem timespec_conversions_negative :
    ¬ (toTimespec ⟨-1⟩).Normal ∧ (toTimespec ⟨-1⟩).tvNsec.toInt = -1 ∧
      (⟨-1, 500000000⟩ : Timespec 64).Normal ∧
      fromTimespec ⟨-1, 500000000⟩ = some ⟨-500000000⟩ ∧
      (toTimespec ⟨-500000000⟩).tvSec.toInt = 0 := by
  decide

end TimeDelta

end EnvironmentCheck
