import EnvironmentCheck.Library.ConditionVariable
import EnvironmentCheck.Library.Transition
import EnvironmentCheck.TimePoint

namespace EnvironmentCheck

open ConditionVariable

inductive CvStatus where
  | noTimeout
  | timeout
  deriving DecidableEq, Repr

/-- The locals of a wait with a timeout, and `since`, the time of its last `wait_for`. -/
structure TimedWait where
  timeout : TimeDelta
  start : TimePoint
  waitRemaining : TimeDelta
  since : TimePoint
  deriving DecidableEq, Repr

inductive WaitOutcome (κ : Type*) where
  | returns (timedOut : Bool)
  | waits (call : κ)

namespace WaitOutcome

variable {κ ρ : Type*}

def map (f : κ → ρ) : WaitOutcome κ → WaitOutcome ρ
  | .returns timedOut => .returns timedOut
  | .waits call => .waits (f call)

def result : WaitOutcome κ → Option Bool
  | .returns timedOut => some timedOut
  | .waits _ => none

def waiter : WaitOutcome κ → Waiter κ
  | .returns _ => .away
  | .waits call => .blocked call

end WaitOutcome

namespace TimedWait

def begin (timeout : TimeDelta) (now : TimePoint) : TimedWait := ⟨timeout, now, timeout, now⟩

def turn (w : TimedWait) (condition : Bool) (status : CvStatus) (now : TimePoint) :
    WaitOutcome TimedWait :=
  if status = .timeout then .returns true
  else if condition then .returns false
  else if w.timeout ≤ now - w.start then .returns true
  else .waits { w with waitRemaining := w.timeout - (now - w.start), since := now }

theorem turn_cases (w : TimedWait) (condition : Bool) (status : CvStatus) (now : TimePoint) :
    (w.turn condition status now = .returns true ∧ (status = .timeout ∨ condition = false)) ∨
    (w.turn condition status now = .returns false ∧ condition = true ∧ status = .noTimeout) ∨
    ∃ w', w.turn condition status now = .waits w' ∧ condition = false ∧ status = .noTimeout := by
  unfold turn
  cases status with
  | timeout => exact .inl ⟨rfl, .inl rfl⟩
  | noTimeout =>
    rw [if_neg (by decide)]
    cases condition with
    | true => exact .inr (.inl ⟨rfl, rfl, rfl⟩)
    | false =>
      rw [if_neg (by decide)]
      split_ifs
      · exact .inl ⟨rfl, .inr rfl⟩
      · exact .inr (.inr ⟨_, rfl, rfl, rfl⟩)

/-- `wait_for` reports a timeout only after its deadline. -/
def Reports (w : TimedWait) (status : CvStatus) (now : TimePoint) : Prop :=
  status = .timeout → w.waitRemaining ≤ now - w.since

instance (w : TimedWait) (status : CvStatus) (now : TimePoint) :
    Decidable (w.Reports status now) :=
  inferInstanceAs (Decidable (_ → _))

end TimedWait

inductive WaitCall where
  | wait
  | waitWithTimeout (locals : TimedWait)
  deriving DecidableEq, Repr

namespace WaitCall

def Reports : WaitCall → CvStatus → TimePoint → Prop
  | .wait, status, _ => status = .noTimeout
  | .waitWithTimeout w, status, now => w.Reports status now

instance : ∀ (call : WaitCall) (status : CvStatus) (now : TimePoint),
    Decidable (call.Reports status now)
  | .wait, status, _ => inferInstanceAs (Decidable (status = .noTimeout))
  | .waitWithTimeout w, status, now => inferInstanceAs (Decidable (w.Reports status now))

end WaitCall

/-- What happens at an event, one critical section or wake-up at a time; `woken` has the choice of
`Signal`. -/
inductive EventStep (ω ι : Type*) where
  | signal (woken : ω)
  | reset
  | wait (thread : ι)
  | waitWithTimeout (thread : ι) (timeout : TimeDelta) (now : TimePoint)
  | wake (thread : ι)
  | resume (thread : ι) (status : CvStatus) (now : TimePoint)

namespace EventStep

variable {ω ι : Type*}

def signals : EventStep ω ι → ℕ
  | .signal _ => 1
  | _ => 0

def caller : EventStep ω ι → Option ι
  | .wait i | .waitWithTimeout i _ _ => some i
  | _ => none

end EventStep

structure CallStart where
  signaled : Bool
  signals : ℕ
  deriving DecidableEq, Repr

structure WaitReturn (ι : Type*) where
  thread : ι
  timedOut : Bool
  started : CallStart
  signals : ℕ
  deriving DecidableEq, Repr

/-- An event with the number of its signals, the start of each thread's last call, and what the
calls returned. -/
structure EventHistory (ε ι : Type*) where
  event : ε
  signals : ℕ
  started : ι → CallStart
  returned : List (WaitReturn ι)

namespace EventHistory

variable {ε ω ι : Type*}

def create (event : ε) : EventHistory ε ι := ⟨event, 0, fun _ => ⟨false, 0⟩, []⟩

def start [DecidableEq ι] (h : EventHistory ε ι) (signaled : Bool) : Option ι → ι → CallStart
  | none => h.started
  | some i => Function.update h.started i ⟨signaled, h.signals⟩

def record [DecidableEq ι] (step : ε → EventStep ω ι → Option (ε × Option (ι × Bool)))
    (signaled : ε → Bool) (h : EventHistory ε ι) (e : EventStep ω ι) :
    Option (EventHistory ε ι) :=
  (step h.event e).map fun r =>
    let started := h.start (signaled h.event) e.caller
    { event := r.1
      signals := h.signals + e.signals
      started
      returned := h.returned ++
        (r.2.map fun ret => ⟨ret.1, ret.2, started ret.1, h.signals⟩).toList }

/-- At each successful wait, the number of signals up to it: its last signal released it. -/
def releases (h : EventHistory ε ι) : List ℕ :=
  (h.returned.filter fun r => !r.timedOut).map (·.signals)

def returns [DecidableEq ι] (h : EventHistory ε ι) (i : ι) : ℕ :=
  h.returned.countP fun r => decide (r.thread = i)

variable {h h' : EventHistory ε ι} {r : WaitReturn ι}

theorem releases_congr (hsame : h'.returned = h.returned) : h'.releases = h.releases := by
  rw [releases, hsame, releases]

theorem releases_success (hret : h'.returned = h.returned ++ [r]) (hr : r.timedOut = false) :
    h'.releases = h.releases ++ [r.signals] := by
  simp [releases, hret, hr]

theorem releases_timeout (hret : h'.returned = h.returned ++ [r]) (hr : r.timedOut = true) :
    h'.releases = h.releases := by
  simp [releases, hret, hr]

end EventHistory

end EnvironmentCheck
