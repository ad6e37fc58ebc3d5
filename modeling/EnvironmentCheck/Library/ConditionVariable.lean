import Mathlib.Data.Fintype.Basic
import Mathlib.Logic.Function.Basic

namespace EnvironmentCheck.ConditionVariable

/-- A thread at a condition variable, with what its call keeps across the wait. Between the wake-up
and the mutex it is `notified`, or `awake` where no notification was for it. -/
inductive Waiter (κ : Type*) where
  | away
  | blocked (call : κ)
  | notified (call : κ)
  | awake (call : κ)
  deriving DecidableEq

namespace Waiter

variable {κ : Type*}

def call : Waiter κ → Option κ
  | .away => none
  | .blocked c | .notified c | .awake c => some c

def isBlocked : Waiter κ → Bool
  | .blocked _ => true
  | _ => false

def isNotified : Waiter κ → Bool
  | .notified _ => true
  | _ => false

def ready : Waiter κ → Option κ
  | .notified c | .awake c => some c
  | _ => none

def notify : Waiter κ → Waiter κ
  | .blocked c => .notified c
  | w => w

def wake : Waiter κ → Option (Waiter κ)
  | .blocked c => some (.awake c)
  | _ => none

variable {w w' : Waiter κ} {c : κ}

@[simp] theorem call_away : (Waiter.away (κ := κ)).call = none := rfl

@[simp] theorem call_blocked (c : κ) : (Waiter.blocked c).call = some c := rfl

@[simp] theorem isBlocked_iff : w.isBlocked = true ↔ ∃ c, w = .blocked c := by
  cases w <;> simp [isBlocked]

@[simp] theorem isNotified_iff : w.isNotified = true ↔ ∃ c, w = .notified c := by
  cases w <;> simp [isNotified]

@[simp] theorem notify_call (w : Waiter κ) : w.notify.call = w.call := by
  cases w <;> rfl

theorem notify_ne_blocked (w : Waiter κ) (c : κ) : w.notify ≠ .blocked c := by
  cases w <;> simp [notify]

theorem call_of_ready (h : w.ready = some c) : w.call = some c := by
  cases w with
  | away => cases h
  | blocked c => cases h
  | notified c => exact h
  | awake c => exact h

theorem wake_cases (h : w.wake = some w') : ∃ c, w = .blocked c ∧ w' = .awake c := by
  cases w with
  | blocked c => exact ⟨c, rfl, (Option.some.inj h).symm⟩
  | _ => cases h

theorem wake_call (h : w.wake = some w') : w'.call = w.call := by
  obtain ⟨c, rfl, rfl⟩ := wake_cases h
  rfl

end Waiter

variable {ι κ : Type*} [DecidableEq ι] {f g : ι → Waiter κ}

/-- One blocked thread gets the notification, and none does only where none is blocked. -/
def notifyOne [Fintype ι] (f : ι → Waiter κ) : Option ι → Option (ι → Waiter κ)
  | none => if ∀ i, (f i).isBlocked = false then some f else none
  | some i => if (f i).isBlocked then some (Function.update f i (f i).notify) else none

def notifyAll (f : ι → Waiter κ) : ι → Waiter κ := fun i => (f i).notify

/-- The thread leaves the condition variable by itself. -/
def wakeOne (f : ι → Waiter κ) (i : ι) : Option (ι → Waiter κ) :=
  (f i).wake.map fun w => Function.update f i w

theorem notifyOne_notified [Fintype ι] {o : Option ι} (h : notifyOne f o = some g) {i : ι} {c : κ}
    (hi : g i = .blocked c) : ∃ j, (g j).isNotified = true := by
  cases o with
  | none =>
    simp only [notifyOne] at h
    split_ifs at h with hnone
    obtain rfl := Option.some.inj h
    have hblocked := hnone i
    rw [hi] at hblocked
    cases hblocked
  | some j =>
    simp only [notifyOne] at h
    split_ifs at h with hj
    obtain ⟨d, hd⟩ := Waiter.isBlocked_iff.mp hj
    refine ⟨j, ?_⟩
    rw [← Option.some.inj h, Function.update_self, hd]
    rfl

theorem wakeOne_call {i : ι} (h : wakeOne f i = some g) (j : ι) : (g j).call = (f j).call := by
  obtain ⟨w, hw, rfl⟩ := Option.map_eq_some_iff.mp h
  by_cases hj : j = i
  · subst hj
    rw [Function.update_self, Waiter.wake_call hw]
  · rw [Function.update_of_ne hj]

theorem wakeOne_blocked {i j : ι} {c : κ} (h : wakeOne f i = some g) (hj : g j = .blocked c) :
    f j = .blocked c := by
  obtain ⟨w, hw, rfl⟩ := Option.map_eq_some_iff.mp h
  obtain ⟨d, -, rfl⟩ := Waiter.wake_cases hw
  by_cases hji : j = i
  · subst hji
    rw [Function.update_self] at hj
    cases hj
  · rwa [Function.update_of_ne hji] at hj

theorem wakeOne_notified {i j : ι} (h : wakeOne f i = some g) (hj : (f j).isNotified = true) :
    (g j).isNotified = true := by
  obtain ⟨w, hw, rfl⟩ := Option.map_eq_some_iff.mp h
  obtain ⟨d, hd, rfl⟩ := Waiter.wake_cases hw
  by_cases hji : j = i
  · subst hji
    rw [hd] at hj
    cases hj
  · rwa [Function.update_of_ne hji]

end EnvironmentCheck.ConditionVariable
