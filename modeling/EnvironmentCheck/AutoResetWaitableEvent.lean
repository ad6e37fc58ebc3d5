import EnvironmentCheck.Library.Tally
import EnvironmentCheck.WaitableEvent

namespace EnvironmentCheck

open ConditionVariable Transition

structure AutoResetWaitableEvent (ι : Type*) where
  signaled : Bool
  cv : ι → Waiter WaitCall

namespace AutoResetWaitableEvent

variable {ι : Type*}

def create : AutoResetWaitableEvent ι := ⟨false, fun _ => .away⟩

def signal [Fintype ι] [DecidableEq ι] (e : AutoResetWaitableEvent ι) (woken : Option ι) :
    Option (AutoResetWaitableEvent ι) :=
  (notifyOne e.cv woken).map fun cv => ⟨true, cv⟩

def reset (e : AutoResetWaitableEvent ι) : AutoResetWaitableEvent ι := { e with signaled := false }

/-- Up to the next `wait` on the condition variable, from the start or from a wake-up. -/
def wait (e : AutoResetWaitableEvent ι) : AutoResetWaitableEvent ι × WaitOutcome WaitCall :=
  if e.signaled then (e.reset, .returns false) else (e, .waits .wait)

def waitWithTimeout (e : AutoResetWaitableEvent ι) (timeout : TimeDelta) (now : TimePoint) :
    AutoResetWaitableEvent ι × WaitOutcome WaitCall :=
  if e.signaled then (e.reset, .returns false)
  else (e, .waits (.waitWithTimeout (.begin timeout now)))

def wakeUp (e : AutoResetWaitableEvent ι) (status : CvStatus) (now : TimePoint) :
    WaitCall → AutoResetWaitableEvent ι × WaitOutcome WaitCall
  | .wait => e.wait
  | .waitWithTimeout w =>
    match w.turn e.signaled status now with
    | .returns true => (e, .returns true)
    | .returns false => (e.reset, .returns false)
    | .waits w => (e, .waits (.waitWithTimeout w))

/-- Signaled, with a thread in `Wait` that nobody will wake. -/
structure Stranded (e : AutoResetWaitableEvent ι) : Prop where
  signaled : e.signaled = true
  blocked : ∃ i, e.cv i = .blocked .wait
  silent : ∀ i, (e.cv i).isNotified = false

theorem not_stranded_of_reset {e : AutoResetWaitableEvent ι} (h : e.signaled = false) : ¬ e.Stranded := by
  intro hs
  have hsignaled := hs.signaled
  rw [h] at hsignaled
  cases hsignaled

theorem result_wait (e : AutoResetWaitableEvent ι) : e.wait.2.result ≠ some true := by
  unfold wait
  split_ifs <;> simp [WaitOutcome.result]

variable [DecidableEq ι]

def leave (i : ι) (r : AutoResetWaitableEvent ι × WaitOutcome WaitCall) :
    AutoResetWaitableEvent ι × Option (ι × Bool) :=
  ({ r.1 with cv := Function.update r.1.cv i r.2.waiter }, r.2.result.map fun timedOut => (i, timedOut))

def step [Fintype ι] (e : AutoResetWaitableEvent ι) :
    EventStep (Option ι) ι → Option (AutoResetWaitableEvent ι × Option (ι × Bool))
  | .signal woken => (e.signal woken).map fun e => (e, none)
  | .reset => some (e.reset, none)
  | .wait i => if (e.cv i).call = none then some (leave i e.wait) else none
  | .waitWithTimeout i timeout now =>
    if (e.cv i).call = none then some (leave i (e.waitWithTimeout timeout now)) else none
  | .wake i => (wakeOne e.cv i).map fun cv => ({ e with cv := cv }, none)
  | .resume i status now => (e.cv i).ready.bind fun call =>
    if call.Reports status now then some (leave i (e.wakeUp status now call)) else none

def next [Fintype ι] (e : AutoResetWaitableEvent ι) (s : EventStep (Option ι) ι) :
    Option (AutoResetWaitableEvent ι) :=
  (e.step s).map Prod.fst

/-- No wait that has the only notification takes its timeout while the event is signaled and a
thread is blocked in `Wait`. -/
def PassesOn (e : AutoResetWaitableEvent ι) : EventStep (Option ι) ι → Prop
  | .resume i .timeout _ => (e.cv i).isNotified = true → e.signaled = true →
    (∃ j, e.cv j = .blocked .wait) → ∃ j, j ≠ i ∧ (e.cv j).isNotified = true
  | _ => True

/-- What a thread does from `status` on until it gives the mutex up. -/
inductive Effect (e : AutoResetWaitableEvent ι) (i : ι) :
    CvStatus → AutoResetWaitableEvent ι × Option (ι × Bool) → Prop where
  | success (h : e.signaled = true) :
    Effect e i .noTimeout (⟨false, Function.update e.cv i .away⟩, some (i, false))
  | timeout (status : CvStatus) (h : status = .timeout ∨ e.signaled = false) :
    Effect e i status ({ e with cv := Function.update e.cv i .away }, some (i, true))
  | block (call : WaitCall) (h : e.signaled = false) :
    Effect e i .noTimeout ({ e with cv := Function.update e.cv i (.blocked call) }, none)

variable {e e' : AutoResetWaitableEvent ι} {s : EventStep (Option ι) ι} {i : ι}
  {r : AutoResetWaitableEvent ι × Option (ι × Bool)} {cv : ι → Waiter WaitCall}

theorem effect_wait (e : AutoResetWaitableEvent ι) (i : ι) :
    Effect e i .noTimeout (leave i e.wait) := by
  unfold wait
  split_ifs with h
  · exact .success h
  · exact .block .wait (by simpa using h)

theorem effect_waitWithTimeout (e : AutoResetWaitableEvent ι) (i : ι) (timeout : TimeDelta)
    (now : TimePoint) : Effect e i .noTimeout (leave i (e.waitWithTimeout timeout now)) := by
  unfold waitWithTimeout
  split_ifs with h
  · exact .success h
  · exact .block _ (by simpa using h)

theorem effect_wakeUp (e : AutoResetWaitableEvent ι) (i : ι) {status : CvStatus} {now : TimePoint}
    {call : WaitCall} (h : call.Reports status now) :
    Effect e i status (leave i (e.wakeUp status now call)) := by
  cases call with
  | wait =>
    obtain rfl : status = .noTimeout := h
    exact effect_wait e i
  | waitWithTimeout w =>
    obtain ⟨hw, ht⟩ | ⟨hw, hs, rfl⟩ | ⟨w', hw, hs, rfl⟩ := w.turn_cases e.signaled status now
    · rw [wakeUp, hw]
      exact .timeout status ht
    · rw [wakeUp, hw]
      exact .success hs
    · rw [wakeUp, hw]
      exact .block _ hs

/-- The step goes on with a call of `Wait`. -/
def InWait (e : AutoResetWaitableEvent ι) : EventStep (Option ι) ι → Prop
  | .wait _ => True
  | .resume i _ _ => (e.cv i).ready = some .wait
  | _ => False

/-- A return of `Wait` is no timeout. -/
theorem not_timedOut_of_inWait [Fintype ι] {timedOut : Bool} (h : e.InWait s)
    (hstep : e.step s = some (e', some (i, timedOut))) : timedOut = false := by
  have hleave (j : ι) (hj : leave j e.wait = (e', some (i, timedOut))) : timedOut = false := by
    obtain ⟨b, hresult, hpair⟩ := Option.map_eq_some_iff.mp (congrArg Prod.snd hj)
    obtain ⟨_, rfl⟩ := Prod.mk.inj hpair
    apply Bool.eq_false_of_not_eq_true
    rintro rfl
    exact result_wait e hresult
  cases s with
  | wait j =>
    rw [step] at hstep
    split at hstep
    · exact hleave j (Option.some.inj hstep)
    · cases hstep
  | resume j status now =>
    have hready : (e.cv j).ready = some .wait := h
    rw [step, hready, Option.bind_some] at hstep
    split at hstep
    · exact hleave j (Option.some.inj hstep)
    · cases hstep
  | signal => cases h
  | reset => cases h
  | waitWithTimeout => cases h
  | wake => cases h

theorem stranded_of_wake (h : wakeOne e.cv i = some cv) (hs : Stranded { e with cv := cv }) :
    e.Stranded := by
  obtain ⟨j, hj⟩ := hs.blocked
  refine ⟨hs.signaled, ⟨j, wakeOne_blocked h hj⟩, fun k => ?_⟩
  by_contra hk
  have hnotified := wakeOne_notified h (Bool.of_not_eq_false hk)
  have hsilent := hs.silent k
  rw [hnotified] at hsilent
  cases hsilent

theorem stranded_update_away :
    Stranded { e with cv := Function.update e.cv i .away } ↔
      e.signaled = true ∧ (∃ j, j ≠ i ∧ e.cv j = .blocked .wait) ∧
        ∀ j, j ≠ i → (e.cv j).isNotified = false := by
  constructor
  · intro h
    obtain ⟨j, hj⟩ := h.blocked
    have hji : j ≠ i := by
      rintro rfl
      simp at hj
    refine ⟨h.signaled, ⟨j, hji, by simpa [hji] using hj⟩, fun k hk => ?_⟩
    have hsilent := h.silent k
    simpa only [Function.update_of_ne hk] using hsilent
  · rintro ⟨hs, ⟨j, hji, hj⟩, hsilent⟩
    refine ⟨hs, ⟨j, by simpa [hji] using hj⟩, fun k => ?_⟩
    by_cases hk : k = i
    · subst hk
      simp only [Function.update_self]
      rfl
    · simpa only [Function.update_of_ne hk] using hsilent k hk

theorem not_stranded_timeout_iff {now : TimePoint} (h : ¬ e.Stranded) :
    ¬ Stranded { e with cv := Function.update e.cv i .away } ↔
      e.PassesOn (.resume i .timeout now) := by
  rw [stranded_update_away]
  simp only [PassesOn]
  constructor
  · intro hn hi hs hblocked
    by_contra hnone
    push Not at hnone
    apply hn
    obtain ⟨j, hj⟩ := hblocked
    refine ⟨hs, ⟨j, ?_, hj⟩, fun k hk => Bool.of_not_eq_true (hnone k hk)⟩
    rintro rfl
    rw [hj] at hi
    cases hi
  · rintro hpass ⟨hs, ⟨j, -, hj⟩, hsilent⟩
    by_cases hi : (e.cv i).isNotified = true
    · obtain ⟨k, hk, hnotified⟩ := hpass hi hs ⟨j, hj⟩
      rw [hsilent k hk] at hnotified
      cases hnotified
    · apply h
      refine ⟨hs, ⟨j, hj⟩, fun k => ?_⟩
      by_cases hk : k = i
      · subst hk
        exact Bool.of_not_eq_true hi
      · exact hsilent k hk

theorem Effect.outcome {status : CvStatus} (heff : Effect e i status r) :
    (e.signaled = true ∧ r.1.signaled = false ∧ r.2 = some (i, false)) ∨
      (r.1.signaled = e.signaled ∧ (r.2 = none ∨ r.2 = some (i, true))) := by
  cases heff with
  | success hs => exact .inl ⟨hs, rfl, rfl⟩
  | timeout => exact .inr ⟨rfl, .inr rfl⟩
  | block => exact .inr ⟨rfl, .inl rfl⟩

variable [Fintype ι]

theorem not_stranded_signal {o : Option ι} (h : notifyOne e.cv o = some cv) :
    ¬ Stranded (⟨true, cv⟩ : AutoResetWaitableEvent ι) := by
  intro hs
  obtain ⟨i, hi⟩ := hs.blocked
  obtain ⟨j, hj⟩ := notifyOne_notified h hi
  have hsilent := hs.silent j
  rw [hj] at hsilent
  cases hsilent

theorem step_cases (h : e.step s = some r) :
    (∃ woken cv, s = .signal woken ∧ notifyOne e.cv woken = some cv ∧ r = (⟨true, cv⟩, none)) ∨
    (s = .reset ∧ r = (e.reset, none)) ∨
    (∃ i cv, s = .wake i ∧ wakeOne e.cv i = some cv ∧ r = ({ e with cv := cv }, none)) ∨
    (∃ i, s.caller = some i ∧ (e.cv i).call = none ∧ Effect e i .noTimeout r) ∨
    (∃ i status now, s = .resume i status now ∧ (e.cv i).call ≠ none ∧ Effect e i status r) := by
  cases s with
  | signal woken =>
    obtain ⟨e', he, rfl⟩ := Option.map_eq_some_iff.mp h
    obtain ⟨cv, hcv, rfl⟩ := Option.map_eq_some_iff.mp he
    exact .inl ⟨woken, cv, rfl, hcv, rfl⟩
  | reset => exact .inr (.inl ⟨rfl, (Option.some.inj h).symm⟩)
  | wake i =>
    obtain ⟨cv, hcv, rfl⟩ := Option.map_eq_some_iff.mp h
    exact .inr (.inr (.inl ⟨i, cv, rfl, hcv, rfl⟩))
  | wait i =>
    simp only [step] at h
    split_ifs at h with haway
    rw [← Option.some.inj h]
    exact .inr (.inr (.inr (.inl ⟨i, rfl, haway, effect_wait e i⟩)))
  | waitWithTimeout i timeout now =>
    simp only [step] at h
    split_ifs at h with haway
    rw [← Option.some.inj h]
    exact .inr (.inr (.inr (.inl ⟨i, rfl, haway, effect_waitWithTimeout e i timeout now⟩)))
  | resume i status now =>
    obtain ⟨call, hcall, h⟩ := Option.bind_eq_some_iff.mp h
    split_ifs at h with hreports
    rw [← Option.some.inj h]
    refine .inr (.inr (.inr (.inr ⟨i, status, now, rfl, ?_, effect_wakeUp e i hreports⟩)))
    rw [Waiter.call_of_ready hcall]
    exact Option.some_ne_none call

theorem stranded_next_iff (hn : e.next s = some e') (h : ¬ e.Stranded) :
    ¬ e'.Stranded ↔ e.PassesOn s := by
  obtain ⟨r, hr, rfl⟩ := Option.map_eq_some_iff.mp hn
  obtain ⟨woken, cv, rfl, hcv, rfl⟩ | ⟨rfl, rfl⟩ | ⟨i, cv, rfl, hcv, rfl⟩ | ⟨i, hi, -, heff⟩ |
    ⟨i, status, now, rfl, -, heff⟩ := step_cases hr
  · exact iff_of_true (not_stranded_signal hcv) trivial
  · exact iff_of_true (not_stranded_of_reset rfl) trivial
  · exact iff_of_true (fun hs => h (stranded_of_wake hcv hs)) trivial
  · have hpass : e.PassesOn s := by
      cases s with
      | wait j => exact trivial
      | waitWithTimeout j timeout now => exact trivial
      | _ => cases hi
    apply iff_of_true _ hpass
    cases heff with
    | success hs => exact not_stranded_of_reset rfl
    | timeout _ ht =>
      cases ht with
      | inl ht => cases ht
      | inr ht => exact not_stranded_of_reset ht
    | block call hs => exact not_stranded_of_reset hs
  · cases heff with
    | success hs => exact iff_of_true (not_stranded_of_reset rfl) trivial
    | timeout _ ht =>
      cases status with
      | timeout => exact not_stranded_timeout_iff h
      | noTimeout =>
        cases ht with
        | inl ht => cases ht
        | inr ht => exact iff_of_true (not_stranded_of_reset ht) trivial
    | block call hs => exact iff_of_true (not_stranded_of_reset hs) trivial

theorem strands_no_waiter_iff (es : List (EventStep (Option ι) ι))
    (hr : (run next create es).isSome) :
    Always next (fun e => ¬ e.Stranded) create es ↔ Meets next PassesOn create es := by
  apply always_iff_meets_of_exact _ _ hr
  · exact not_stranded_of_reset rfl
  · intro e s e' hn h
    exact stranded_next_iff hn h

def timedWaiterNotified : List (EventStep (Option Bool) Bool) :=
  [.wait false, .waitWithTimeout true ⟨10⟩ ⟨0⟩, .signal (some true), .resume true .timeout ⟨10⟩]

theorem strands_no_waiter_iff_timedWaiterNotified :
    Always next (fun e => ¬ e.Stranded) create timedWaiterNotified ↔
      Meets next PassesOn create timedWaiterNotified :=
  strands_no_waiter_iff timedWaiterNotified (by decide)

theorem timedWaiterNotified_strands :
    ∃ e, run next create timedWaiterNotified = some e ∧ e.signaled = true ∧
      e.cv false = .blocked .wait ∧ e.cv true = .away ∧ e.Stranded := by
  refine ⟨_, rfl, rfl, rfl, rfl, rfl, ⟨false, rfl⟩, ?_⟩
  decide

def recorded (h : EventHistory (AutoResetWaitableEvent ι) ι) (s : EventStep (Option ι) ι) :
    Option (EventHistory (AutoResetWaitableEvent ι) ι) :=
  h.record step (·.signaled) s

variable {h h' : EventHistory (AutoResetWaitableEvent ι) ι}

theorem step_outcome (hn : e.step s = some r) :
    ((∃ woken, s = .signal woken) ∧ r.1.signaled = true ∧ r.2 = none) ∨
    (s = .reset ∧ r.1.signaled = false ∧ r.2 = none) ∨
    (s.signals = 0 ∧ ∃ i, (e.signaled = true ∧ r.1.signaled = false ∧ r.2 = some (i, false)) ∨
      (r.1.signaled = e.signaled ∧ (r.2 = none ∨ r.2 = some (i, true)))) := by
  obtain ⟨woken, cv, rfl, hcv, rfl⟩ | ⟨rfl, rfl⟩ | ⟨i, cv, rfl, hcv, rfl⟩ | ⟨i, hi, -, heff⟩ |
    ⟨i, status, now, rfl, -, heff⟩ := step_cases hn
  · exact .inl ⟨⟨woken, rfl⟩, rfl, rfl⟩
  · exact .inr (.inl ⟨rfl, rfl, rfl⟩)
  · exact .inr (.inr ⟨rfl, i, .inr ⟨rfl, .inl rfl⟩⟩)
  · refine .inr (.inr ⟨?_, i, heff.outcome⟩)
    cases s with
    | signal woken => cases hi
    | _ => rfl
  · exact .inr (.inr ⟨rfl, i, heff.outcome⟩)

theorem recorded_cases (hn : recorded h s = some h') :
    ((∃ woken, s = .signal woken) ∧ h'.event.signaled = true ∧ h'.signals = h.signals + 1 ∧
      h'.returned = h.returned) ∨
    (s = .reset ∧ h'.event.signaled = false ∧ h'.signals = h.signals ∧
      h'.returned = h.returned) ∨
    (h.event.signaled = true ∧ h'.event.signaled = false ∧ h'.signals = h.signals ∧
      ∃ r, r.timedOut = false ∧ r.signals = h.signals ∧ h'.returned = h.returned ++ [r]) ∨
    (h'.event.signaled = h.event.signaled ∧ h'.signals = h.signals ∧
      (h'.returned = h.returned ∨ ∃ r, r.timedOut = true ∧ h'.returned = h.returned ++ [r])) := by
  obtain ⟨r, hr, rfl⟩ := Option.map_eq_some_iff.mp hn
  obtain ⟨⟨woken, rfl⟩, hs, hret⟩ | ⟨rfl, hs, hret⟩ | ⟨hsig, i, ⟨he, hs, hret⟩ | ⟨hs, hret⟩⟩ :=
    step_outcome hr
  · refine .inl ⟨⟨woken, rfl⟩, hs, rfl, ?_⟩
    simp [hret]
  · refine .inr (.inl ⟨rfl, hs, rfl, ?_⟩)
    simp [hret]
  · refine .inr (.inr (.inl ⟨he, hs, ?_, _, ?_, ?_, by rw [hret]; rfl⟩))
    · simp [hsig]
    · rfl
    · rfl
  · refine .inr (.inr (.inr ⟨hs, ?_, ?_⟩))
    · simp [hsig]
    · cases hret with
      | inl hret =>
        left
        simp [hret]
      | inr hret => exact .inr ⟨_, rfl, by rw [hret]; rfl⟩

/-- Each successful wait has a signal to itself, and while the event is signaled the last one is
left. -/
structure Tokens (h : EventHistory (AutoResetWaitableEvent ι) ι) : Prop where
  increasing : h.releases.Pairwise (· < ·)
  earlier : ∀ n ∈ h.releases, 0 < n ∧ n ≤ h.signals
  left : h.event.signaled = true → 0 < h.signals ∧ ∀ n ∈ h.releases, n < h.signals

theorem tokens_recorded (ht : Tokens h) (hn : recorded h s = some h') : Tokens h' := by
  obtain ⟨-, hs, hsig, hret⟩ | ⟨-, hs, hsig, hret⟩ | ⟨he, hs, hsig, r, hr, hrs, hret⟩ |
    ⟨hs, hsig, hret⟩ := recorded_cases hn
  · have hrel := EventHistory.releases_congr hret
    refine ⟨?_, fun n hm => ?_, fun _ => ⟨by omega, fun n hm => ?_⟩⟩
    · rw [hrel]
      exact ht.increasing
    · rw [hrel] at hm
      have hle := ht.earlier n hm
      omega
    · rw [hrel] at hm
      have hle := ht.earlier n hm
      omega
  · have hrel := EventHistory.releases_congr hret
    refine ⟨?_, ?_, fun htrue => ?_⟩
    · rw [hrel]
      exact ht.increasing
    · rw [hrel, hsig]
      exact ht.earlier
    · rw [hs] at htrue
      cases htrue
  · have hrel := EventHistory.releases_success hret hr
    obtain ⟨hpos, hlt⟩ := ht.left he
    rw [hrs] at hrel
    refine ⟨?_, fun n hm => ?_, fun htrue => ?_⟩
    · rw [hrel, List.pairwise_append]
      refine ⟨ht.increasing, List.pairwise_singleton .., fun n hm k hk => ?_⟩
      rw [List.mem_singleton.mp hk]
      exact hlt n hm
    · rw [hrel, List.mem_append] at hm
      rw [hsig]
      cases hm with
      | inl hold => exact ht.earlier n hold
      | inr hnew =>
        rw [List.mem_singleton.mp hnew]
        exact ⟨hpos, le_refl _⟩
    · rw [hs] at htrue
      cases htrue
  · have hrel : h'.releases = h.releases := by
      obtain hret | ⟨r, hr, hret⟩ := hret
      · exact EventHistory.releases_congr hret
      · exact EventHistory.releases_timeout hret hr
    refine ⟨?_, ?_, ?_⟩
    · rw [hrel]
      exact ht.increasing
    · rw [hrel, hsig]
      exact ht.earlier
    · rw [hs, hrel, hsig]
      exact ht.left

theorem tokens_run {es : List (EventStep (Option ι) ι)}
    (hr : run recorded (.create create) es = some h) : Tokens h := by
  have hreach : Reachable recorded (fun _ _ => True) (.create create) h := ⟨es, meets_true _ _, hr⟩
  apply hreach.invariant (p := Tokens)
  · refine ⟨.nil, fun n hn => ?_, fun hs => ?_⟩
    · cases hn
    · cases hs
  · intro h s h' _ ht _ hn
    exact tokens_recorded ht hn

theorem releases_length_run {es : List (EventStep (Option ι) ι)} (hr : run recorded h es = some h') :
    h.releases.length ≤ h'.releases.length := by
  refine run_mono (f := fun h => h.releases.length) ?_ hr
  intro h s h' hn
  obtain ⟨-, -, -, hret⟩ | ⟨-, -, -, hret⟩ | ⟨-, -, -, r, hr, -, hret⟩ |
    ⟨-, -, hret | ⟨r, hr, hret⟩⟩ := recorded_cases hn
  · rw [EventHistory.releases_congr hret]
  · rw [EventHistory.releases_congr hret]
  · rw [EventHistory.releases_success hret hr, List.length_append]
    omega
  · rw [EventHistory.releases_congr hret]
  · rw [EventHistory.releases_timeout hret hr]

theorem signaled_run {es : List (EventStep (Option ι) ι)} (hr : run recorded h es = some h')
    (hs : h.event.signaled = true) (hreset : .reset ∉ es) (hrel : h'.releases = h.releases) :
    h'.event.signaled = true := by
  induction es generalizing h with
  | nil =>
    cases hr
    exact hs
  | cons s es ih =>
    obtain ⟨u, hu, hr⟩ := Option.bind_eq_some_iff.mp hr
    have hlen := releases_length_run hr
    rw [List.mem_cons, not_or] at hreset
    have hstep : u.event.signaled = true ∧ u.releases = h.releases := by
      obtain ⟨-, hs', -, hret⟩ | ⟨rfl, -⟩ | ⟨-, -, -, r, hr, -, hret⟩ |
        ⟨hs', -, hret | ⟨r, hr, hret⟩⟩ := recorded_cases hu
      · exact ⟨hs', EventHistory.releases_congr hret⟩
      · exact absurd rfl hreset.1
      · rw [hrel, EventHistory.releases_success hret hr, List.length_append,
          List.length_singleton] at hlen
        omega
      · exact ⟨hs'.trans hs, EventHistory.releases_congr hret⟩
      · exact ⟨hs'.trans hs, EventHistory.releases_timeout hret hr⟩
    exact ih hr hstep.1 hreset.2 (hrel.trans hstep.2.symm)

theorem timeout_keeps_signal (hn : recorded h s = some h') {r : WaitReturn ι}
    (hret : h'.returned = h.returned ++ [r]) (ht : r.timedOut = true) :
    h'.event.signaled = h.event.signaled := by
  obtain ⟨-, -, -, hsame⟩ | ⟨-, -, -, hsame⟩ | ⟨-, -, -, r', hr', -, hret'⟩ | ⟨hs, -⟩ :=
    recorded_cases hn
  · simp [hret] at hsame
  · simp [hret] at hsame
  · rw [hret] at hret'
    obtain rfl : r = r' := by simpa using hret'
    rw [ht] at hr'
    cases hr'
  · exact hs

theorem token_law (es : List (EventStep (Option ι) ι)) (hr : run recorded (.create create) es = some h) :
    h.releases.length ≤ h.signals ∧ h.releases.Pairwise (· < ·) ∧
    (∀ n ∈ h.releases, 0 < n ∧ n ≤ h.signals) ∧
    (∀ s h' r, recorded h s = some h' → h'.returned = h.returned ++ [r] → r.timedOut = true →
      h'.event.signaled = h.event.signaled) ∧
    (∀ fs h', run recorded h fs = some h' → h.event.signaled = true → .reset ∉ fs →
      h'.releases = h.releases → h'.event.signaled = true) := by
  have ht := tokens_run hr
  refine ⟨length_le_of_increasing ht.increasing ht.earlier, ht.increasing, ht.earlier, ?_, ?_⟩
  · intro s h' r hn hret htimeout
    exact timeout_keeps_signal hn hret htimeout
  · intro fs h' hfs hs hreset hrel
    exact signaled_run hfs hs hreset hrel

def signaledTwice : List (EventStep (Option Bool) Bool) :=
  [.signal none, .signal none, .wait false, .waitWithTimeout true ⟨5⟩ ⟨0⟩, .wake true,
    .resume true .timeout ⟨5⟩]

theorem token_law_signaledTwice :
    ∃ h, run recorded (.create create) signaledTwice = some h ∧ h.signals = 2 ∧
      h.releases = [2] ∧ h.returned.map (·.timedOut) = [false, true] ∧
      h.releases.length ≤ h.signals ∧ h.releases.Pairwise (· < ·) := by
  have hr := token_law signaledTwice rfl
  exact ⟨_, rfl, rfl, rfl, rfl, hr.1, hr.2.1⟩

end AutoResetWaitableEvent

end EnvironmentCheck
