import Mathlib.Algebra.Order.Ring.Int

namespace EnvironmentCheck

/-- Nanoseconds in an `int64_t`. -/
structure TimePoint where
  ticks : Int64
  deriving DecidableEq, Repr

namespace TimePoint

theorem toInt_injective : Function.Injective fun t : TimePoint => t.ticks.toInt := by
  rintro ⟨a⟩ ⟨b⟩ h
  exact congrArg mk (Int64.toInt_inj.mp h)

instance : LinearOrder TimePoint := LinearOrder.lift' (fun t => t.ticks.toInt) toInt_injective

def max : TimePoint := ⟨Int64.maxValue⟩

theorem le_max (t : TimePoint) : t ≤ max := t.ticks.toInt_le

end TimePoint

/-- Nanoseconds, as above. -/
structure TimeDelta where
  delta : Int64
  deriving DecidableEq, Repr

instance : LE TimeDelta := ⟨fun a b => a.delta ≤ b.delta⟩

instance (a b : TimeDelta) : Decidable (a ≤ b) := inferInstanceAs (Decidable (a.delta ≤ b.delta))

instance : Sub TimeDelta := ⟨fun a b => ⟨a.delta - b.delta⟩⟩

instance : HSub TimePoint TimePoint TimeDelta := ⟨fun a b => ⟨a.ticks - b.ticks⟩⟩

instance : HAdd TimePoint TimeDelta TimePoint := ⟨fun t d => ⟨t.ticks + d.delta⟩⟩

def TimePoint.toEpochDelta (t : TimePoint) : TimeDelta := ⟨t.ticks⟩

def TimeDelta.toNanoseconds (d : TimeDelta) : Int64 := d.delta

end EnvironmentCheck
