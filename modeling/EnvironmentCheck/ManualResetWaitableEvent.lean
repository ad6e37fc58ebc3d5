import EnvironmentCheck.WaitableEvent

namespace EnvironmentCheck

open ConditionVariable Transition

/-- A call with the value of `signal_id_` that it started from. -/
structure ManualWait where
  lastSignalId : UInt32
  call : WaitCall
  deriving DecidableEq

structure ManualResetWaitableEvent (ι : Type*) where
  signaled : Bool
  signalId : UInt32
  cv : ι → Waiter ManualWait

namespace ManualResetWaitableEvent

variable {ι : Type*}

def create : ManualResetWaitableEvent ι := ⟨false, 0, fun _ => .away⟩

def signal (e : ManualResetWaitableEvent ι) : ManualResetWaitableEvent ι :=
  ⟨true, e.signalId + 1, notifyAll e.cv⟩

def reset (e : ManualResetWaitableEvent ι) : ManualResetWaitableEvent ι :=
  { e with signaled := false }

def wait (e : ManualResetWaitableEvent ι) : WaitOutcome ManualWait :=
  if e.signaled then .returns false else .waits ⟨e.signalId, .wait⟩

/-- The condition that `WaitWithTimeout` passes on. -/
def condition (e : ManualResetWaitableEvent ι) (lastSignalId : UInt32) : Bool :=
  e.signaled || e.signalId != lastSignalId

def waitWithTimeout (e : ManualResetWaitableEvent ι) (timeout : TimeDelta) (now : TimePoint) :
    WaitOutcome ManualWait :=
  if e.condition e.signalId then .returns false
  else .waits ⟨e.signalId, .waitWithTimeout (.begin timeout now)⟩

def wakeUp (e : ManualResetWaitableEvent ι) (status : CvStatus) (now : TimePoint) (c : ManualWait) :
    WaitOutcome ManualWait :=
  match c.call with
  | .wait => if e.signalId = c.lastSignalId then .waits c else .returns false
  | .waitWithTimeout w => (w.turn (e.condition c.lastSignalId) status now).map
    fun w => ⟨c.lastSignalId, .waitWithTimeout w⟩

theorem wait_cases (e : ManualResetWaitableEvent ι) :
    (e.wait = .returns false ∧ e.signaled = true) ∨
      ∃ c, e.wait = .waits c ∧ c.lastSignalId = e.signalId ∧ e.signaled = false := by
  unfold wait
  split_ifs with hs
  · exact .inl ⟨rfl, hs⟩
  · exact .inr ⟨_, rfl, rfl, by simpa using hs⟩

theorem result_wait (e : ManualResetWaitableEvent ι) : e.wait.result ≠ some true := by
  unfold wait
  split_ifs <;> simp [WaitOutcome.result]

theorem result_wakeUp (e : ManualResetWaitableEvent ι) (status : CvStatus) (now : TimePoint)
    {c : ManualWait} (hc : c.call = .wait) : (e.wakeUp status now c).result ≠ some true := by
  unfold wakeUp
  rw [hc]
  simp only
  split_ifs <;> simp [WaitOutcome.result]

theorem waitWithTimeout_cases (e : ManualResetWaitableEvent ι) (timeout : TimeDelta)
    (now : TimePoint) :
    (e.waitWithTimeout timeout now = .returns false ∧ e.signaled = true) ∨
      ∃ c, e.waitWithTimeout timeout now = .waits c ∧ c.lastSignalId = e.signalId ∧
        e.signaled = false := by
  unfold waitWithTimeout condition
  split_ifs with hs
  · exact .inl ⟨rfl, by simpa using hs⟩
  · exact .inr ⟨_, rfl, rfl, by simpa using hs⟩

theorem wakeUp_cases (e : ManualResetWaitableEvent ι) (status : CvStatus) (now : TimePoint)
    (c : ManualWait) :
    e.wakeUp status now c = .returns true ∨
    (e.wakeUp status now c = .returns false ∧ (e.signaled = true ∨ e.signalId ≠ c.lastSignalId)) ∨
    ∃ c', e.wakeUp status now c = .waits c' ∧ c'.lastSignalId = c.lastSignalId ∧
      e.signalId = c.lastSignalId := by
  unfold wakeUp
  cases c.call with
  | wait =>
    simp only
    split_ifs with hid
    · exact .inr (.inr ⟨c, rfl, rfl, hid⟩)
    · exact .inr (.inl ⟨rfl, .inr hid⟩)
  | waitWithTimeout w =>
    obtain ⟨hw, -⟩ | ⟨hw, hcond, -⟩ | ⟨w', hw, hcond, -⟩ :=
      w.turn_cases (e.condition c.lastSignalId) status now
    · simp only [hw]
      exact .inl rfl
    · simp only [hw]
      exact .inr (.inl ⟨rfl, by simpa [condition] using hcond⟩)
    · simp only [hw]
      refine .inr (.inr ⟨_, rfl, rfl, ?_⟩)
      simp only [condition, Bool.or_eq_false_iff, bne_eq_false_iff_eq] at hcond
      exact hcond.2

variable [DecidableEq ι]

def leave (e : ManualResetWaitableEvent ι) (i : ι) (outcome : WaitOutcome ManualWait) :
    ManualResetWaitableEvent ι × Option (ι × Bool) :=
  ({ e with cv := Function.update e.cv i outcome.waiter },
    outcome.result.map fun timedOut => (i, timedOut))

def step (e : ManualResetWaitableEvent ι) :
    EventStep Unit ι → Option (ManualResetWaitableEvent ι × Option (ι × Bool))
  | .signal _ => some (e.signal, none)
  | .reset => some (e.reset, none)
  | .wait i => if (e.cv i).call = none then some (e.leave i e.wait) else none
  | .waitWithTimeout i timeout now =>
    if (e.cv i).call = none then some (e.leave i (e.waitWithTimeout timeout now)) else none
  | .wake i => (wakeOne e.cv i).map fun cv => ({ e with cv := cv }, none)
  | .resume i status now => (e.cv i).ready.bind fun c =>
    if c.call.Reports status now then some (e.leave i (e.wakeUp status now c)) else none

/-- The step goes on with a call of `Wait`. -/
def InWait (e : ManualResetWaitableEvent ι) : EventStep Unit ι → Prop
  | .wait _ => True
  | .resume i _ _ => ∃ c, (e.cv i).ready = some c ∧ c.call = .wait
  | _ => False

/-- A return of `Wait` is no timeout. -/
theorem not_timedOut_of_inWait {e e' : ManualResetWaitableEvent ι} {s : EventStep Unit ι} {i : ι}
    {timedOut : Bool} (h : e.InWait s) (hstep : e.step s = some (e', some (i, timedOut))) :
    timedOut = false := by
  have hleave (j : ι) (outcome : WaitOutcome ManualWait) (houtcome : outcome.result ≠ some true)
      (hj : e.leave j outcome = (e', some (i, timedOut))) : timedOut = false := by
    obtain ⟨b, hresult, hpair⟩ := Option.map_eq_some_iff.mp (congrArg Prod.snd hj)
    obtain ⟨_, rfl⟩ := Prod.mk.inj hpair
    apply Bool.eq_false_of_not_eq_true
    rintro rfl
    exact houtcome hresult
  cases s with
  | wait j =>
    rw [step] at hstep
    split at hstep
    · exact hleave j e.wait (result_wait e) (Option.some.inj hstep)
    · cases hstep
  | resume j status now =>
    obtain ⟨c, hready, hcall⟩ := h
    rw [step, hready, Option.bind_some] at hstep
    split at hstep
    · exact hleave j _ (result_wakeUp e status now hcall) (Option.some.inj hstep)
    · cases hstep
  | signal => cases h
  | reset => cases h
  | waitWithTimeout => cases h
  | wake => cases h

def recorded (h : EventHistory (ManualResetWaitableEvent ι) ι) (s : EventStep Unit ι) :
    Option (EventHistory (ManualResetWaitableEvent ι) ι) :=
  h.record step (·.signaled) s

/-- No call under way sees `2 ^ 32` signals. -/
def FewSignals (h : EventHistory (ManualResetWaitableEvent ι) ι) (s : EventStep Unit ι) : Prop :=
  ∀ i, (h.event.cv i).call.isSome → h.signals + s.signals < (h.started i).signals + 2 ^ 32

instance [Fintype ι] (h : EventHistory (ManualResetWaitableEvent ι) ι) (s : EventStep Unit ι) :
    Decidable (FewSignals h s) :=
  inferInstanceAs (Decidable (∀ i, (h.event.cv i).call.isSome → _))

/-- What a thread's call keeps after `n` signals. -/
structure Keeps (n : ℕ) (signaled : Bool) (started : CallStart) (w : Waiter ManualWait) : Prop where
  lastSignalId : ∀ c, w.call = some c → c.lastSignalId = UInt32.ofNat started.signals
  few : w.call.isSome → started.signals ≤ n ∧ n < started.signals + 2 ^ 32
  later : w.call.isSome → signaled = true → started.signals < n
  blocked : ∀ c, w = .blocked c → started.signals = n

structure Generations (h : EventHistory (ManualResetWaitableEvent ι) ι) : Prop where
  signalId : h.event.signalId = UInt32.ofNat h.signals
  threads : ∀ i, Keeps h.signals h.event.signaled (h.started i) (h.event.cv i)
  returned : ∀ r ∈ h.returned, r.timedOut = false →
    r.started.signaled = true ∨ r.started.signals < r.signals

theorem ofNat_eq_iff {a b : ℕ} (hle : a ≤ b) (hlt : b < a + 2 ^ 32) :
    UInt32.ofNat b = UInt32.ofNat a ↔ b = a := by
  constructor
  · intro h
    have hmod := congrArg UInt32.toNat h
    rw [UInt32.toNat_ofNat', UInt32.toNat_ofNat'] at hmod
    omega
  · rintro rfl
    rfl

theorem keeps_away (n : ℕ) (signaled : Bool) (started : CallStart) :
    Keeps n signaled started .away := by
  constructor
  · intro c hc
    cases hc
  · intro hc
    cases hc
  · intro hc
    cases hc
  · intro c hc
    cases hc

theorem keeps_begin {n : ℕ} {c : ManualWait} (hc : c.lastSignalId = UInt32.ofNat n) (signaled : Bool) :
    Keeps n false ⟨signaled, n⟩ (.blocked c) := by
  constructor
  · intro c' hc'
    rw [← Option.some.inj hc']
    exact hc
  · intro _
    exact ⟨le_refl n, Nat.lt_add_of_pos_right (by decide)⟩
  · intro _ hfalse
    cases hfalse
  · intro _ _
    rfl

section Keeps

variable {n : ℕ} {signaled : Bool} {started : CallStart} {w w' : Waiter ManualWait}

theorem Keeps.signal (h : Keeps n signaled started w) (hfew : w.call.isSome → n + 1 < started.signals + 2 ^ 32) :
    Keeps (n + 1) true started w.notify := by
  constructor
  · rw [Waiter.notify_call]
    exact h.lastSignalId
  · rw [Waiter.notify_call]
    intro hc
    have hle := (h.few hc).1
    exact ⟨by omega, hfew hc⟩
  · rw [Waiter.notify_call]
    intro hc _
    have hle := (h.few hc).1
    omega
  · intro c hc
    exact absurd hc (Waiter.notify_ne_blocked w c)

theorem Keeps.reset (h : Keeps n signaled started w) : Keeps n false started w := by
  refine ⟨h.lastSignalId, h.few, fun _ hfalse => ?_, h.blocked⟩
  cases hfalse

theorem Keeps.wake (h : Keeps n signaled started w) (hw : w.wake = some w') :
    Keeps n signaled started w' := by
  obtain ⟨c, rfl, rfl⟩ := Waiter.wake_cases hw
  refine ⟨h.lastSignalId, h.few, h.later, fun d hd => ?_⟩
  cases hd

theorem Keeps.block {c c' : ManualWait} (h : Keeps n signaled started w) (hw : w.call = some c)
    (hlast : c'.lastSignalId = c.lastSignalId) (hid : UInt32.ofNat n = c.lastSignalId) :
    Keeps n signaled started (.blocked c') := by
  have hc := h.lastSignalId c hw
  have hsome : w.call.isSome = true := by
    rw [hw]
    rfl
  constructor
  · intro d hd
    rw [← Option.some.inj hd, hlast]
    exact hc
  · intro _
    exact h.few hsome
  · intro _
    exact h.later hsome
  · intro d _
    rw [hc] at hid
    obtain ⟨hle, hlt⟩ := h.few hsome
    exact ((ofNat_eq_iff hle hlt).mp hid).symm

theorem Keeps.success {c : ManualWait} (h : Keeps n signaled started w) (hw : w.call = some c)
    (hcond : signaled = true ∨ UInt32.ofNat n ≠ c.lastSignalId) : started.signals < n := by
  have hsome : w.call.isSome = true := by
    rw [hw]
    rfl
  cases hcond with
  | inl hs => exact h.later hsome hs
  | inr hid =>
    obtain ⟨hle, hlt⟩ := h.few hsome
    rw [h.lastSignalId c hw, Ne, ofNat_eq_iff hle hlt] at hid
    omega

end Keeps

variable {e : ManualResetWaitableEvent ι} {h h' : EventHistory (ManualResetWaitableEvent ι) ι}
  {s : EventStep Unit ι} {i : ι}

theorem Generations.place (hg : Generations h) (i : ι) {w : Waiter ManualWait} {started : CallStart}
    {rets : List (WaitReturn ι)} (hw : Keeps h.signals h.event.signaled started w)
    (hret : ∀ r ∈ rets, r.timedOut = false →
      r.started.signaled = true ∨ r.started.signals < r.signals) :
    Generations ⟨{ h.event with cv := Function.update h.event.cv i w }, h.signals,
      Function.update h.started i started, h.returned ++ rets⟩ := by
  refine ⟨hg.signalId, fun j => ?_, fun r hr => ?_⟩
  · by_cases hj : j = i
    · subst hj
      simp only [Function.update_self]
      exact hw
    · simp only [Function.update_of_ne hj]
      exact hg.threads j
  · cases List.mem_append.mp hr with
    | inl hold => exact hg.returned r hold
    | inr hnew => exact hret r hnew

theorem generations_signal (hg : Generations h) (hf : FewSignals h (.signal ()))
    (hn : recorded h (.signal ()) = some h') : Generations h' := by
  rw [← Option.some.inj hn]
  refine ⟨?_, fun i => (hg.threads i).signal fun hi => hf i hi, ?_⟩
  · simp only [signal, hg.signalId]
    exact (UInt32.ofNat_add h.signals 1).symm
  · simpa using hg.returned

theorem generations_reset (hg : Generations h) (hn : recorded h .reset = some h') :
    Generations h' := by
  rw [← Option.some.inj hn]
  refine ⟨hg.signalId, fun i => (hg.threads i).reset, ?_⟩
  simpa using hg.returned

theorem generations_wake (hg : Generations h) (hn : recorded h (.wake i) = some h') :
    Generations h' := by
  obtain ⟨r, hr, rfl⟩ := Option.map_eq_some_iff.mp hn
  obtain ⟨cv, hcv, rfl⟩ := Option.map_eq_some_iff.mp hr
  obtain ⟨w, hw, rfl⟩ := Option.map_eq_some_iff.mp hcv
  have hnone : ∀ r ∈ ([] : List (WaitReturn ι)), r.timedOut = false →
      r.started.signaled = true ∨ r.started.signals < r.signals := by
    intro r hr
    cases hr
  have hplace := hg.place i ((hg.threads i).wake hw) hnone
  rw [Function.update_eq_self] at hplace
  exact hplace

theorem recorded_leave {outcome : WaitOutcome ManualWait}
    (hr : h.event.step s = some (h.event.leave i outcome)) (hsig : s.signals = 0)
    (hn : recorded h s = some h') :
    h' = ⟨{ h.event with cv := Function.update h.event.cv i outcome.waiter }, h.signals,
      h.start h.event.signaled s.caller,
      h.returned ++ (outcome.result.map fun timedOut =>
        ⟨i, timedOut, h.start h.event.signaled s.caller i, h.signals⟩).toList⟩ := by
  unfold recorded EventHistory.record at hn
  rw [hr] at hn
  rw [← Option.some.inj hn, hsig]
  cases outcome with
  | returns timedOut => rfl
  | waits c => rfl

theorem generations_begin (hg : Generations h) {outcome : WaitOutcome ManualWait}
    (ho : (outcome = .returns false ∧ h.event.signaled = true) ∨
      ∃ c, outcome = .waits c ∧ c.lastSignalId = h.event.signalId ∧ h.event.signaled = false)
    (hs : s.caller = some i) (hr : h.event.step s = some (h.event.leave i outcome))
    (hn : recorded h s = some h') : Generations h' := by
  have hsig : s.signals = 0 := by
    cases s with
    | signal => cases hs
    | _ => rfl
  rw [recorded_leave hr hsig hn, hs]
  apply hg.place
  · obtain ⟨rfl, hsignaled⟩ | ⟨c, rfl, hlast, hsignaled⟩ := ho
    · exact keeps_away _ _ _
    · rw [hsignaled]
      exact keeps_begin (hlast.trans hg.signalId) false
  · obtain ⟨rfl, hsignaled⟩ | ⟨c, rfl, -⟩ := ho
    · simp [WaitOutcome.result, EventHistory.start, hsignaled]
    · simp [WaitOutcome.result]

theorem generations_resume (hg : Generations h) {status : CvStatus} {now : TimePoint}
    (hn : recorded h (.resume i status now) = some h') : Generations h' := by
  obtain ⟨r, hr, -⟩ := Option.map_eq_some_iff.mp hn
  obtain ⟨c, hc, hleave⟩ := Option.bind_eq_some_iff.mp hr
  split_ifs at hleave with hreports
  rw [← hleave] at hr
  have hcall := Waiter.call_of_ready hc
  have hthread := hg.threads i
  have hplace : h.started = Function.update h.started i (h.started i) :=
    (Function.update_eq_self ..).symm
  rw [recorded_leave hr rfl hn]
  simp only [EventStep.caller, EventHistory.start]
  nth_rewrite 1 [hplace]
  apply hg.place
  · obtain ho | ⟨ho, hcond⟩ | ⟨c', ho, hlast, hid⟩ := wakeUp_cases h.event status now c
    · rw [ho]
      exact keeps_away _ _ _
    · rw [ho]
      exact keeps_away _ _ _
    · rw [ho]
      exact hthread.block hcall hlast (hg.signalId.symm.trans hid)
  · obtain ho | ⟨ho, hcond⟩ | ⟨c', ho, hlast, hid⟩ := wakeUp_cases h.event status now c
    · simp [ho, WaitOutcome.result]
    · rw [hg.signalId] at hcond
      have hlt := hthread.success hcall hcond
      simp [ho, WaitOutcome.result, hlt]
    · simp [ho, WaitOutcome.result]

theorem generations_recorded (hg : Generations h) (hf : FewSignals h s)
    (hn : recorded h s = some h') : Generations h' := by
  cases s with
  | signal => exact generations_signal hg hf hn
  | reset => exact generations_reset hg hn
  | wake i => exact generations_wake hg hn
  | resume i status now => exact generations_resume hg hn
  | wait i =>
    obtain ⟨r, hr, -⟩ := Option.map_eq_some_iff.mp hn
    simp only [step] at hr
    split_ifs at hr with haway
    have hstep : h.event.step (.wait i) = some (h.event.leave i h.event.wait) := if_pos haway
    exact generations_begin hg (wait_cases _) rfl hstep hn
  | waitWithTimeout i timeout now =>
    obtain ⟨r, hr, -⟩ := Option.map_eq_some_iff.mp hn
    simp only [step] at hr
    split_ifs at hr with haway
    have hstep : h.event.step (.waitWithTimeout i timeout now) =
        some (h.event.leave i (h.event.waitWithTimeout timeout now)) := if_pos haway
    exact generations_begin hg (waitWithTimeout_cases _ timeout now) rfl hstep hn

theorem generations_run {es : List (EventStep Unit ι)}
    (hm : Meets recorded FewSignals (.create create) es)
    (hr : run recorded (.create create) es = some h) : Generations h := by
  have hreach : Reachable recorded FewSignals (.create create) h := ⟨es, hm, hr⟩
  apply hreach.invariant (p := Generations)
  · refine ⟨rfl, fun i => keeps_away _ _ _, fun r hr => ?_⟩
    cases hr
  · intro h s h' _ hg hf hn
    exact generations_recorded hg hf hn

structure SameCall (h h' : EventHistory (ManualResetWaitableEvent ι) ι) (i : ι) : Prop where
  call : (h'.event.cv i).call.isSome = true
  started : h'.started i = h.started i

theorem sameCall_leave {j : ι} {outcome : WaitOutcome ManualWait}
    (hi : (h.event.cv i).call.isSome = true)
    (hj : s.caller = none ∨ s.caller = some j ∧ (h.event.cv j).call = none)
    (hr : h.event.step s = some (h.event.leave j outcome)) (hsig : s.signals = 0)
    (hn : recorded h s = some h') (hret : h'.returns i = h.returns i) : SameCall h h' i := by
  have hne : s.caller ≠ some i := by
    intro hs
    obtain hnone | ⟨hsome, haway⟩ := hj
    · rw [hnone] at hs
      cases hs
    · obtain rfl : j = i := Option.some.inj (hsome.symm.trans hs)
      rw [haway] at hi
      cases hi
  rw [recorded_leave hr hsig hn] at hret ⊢
  constructor
  · by_cases hij : i = j
    · subst hij
      cases outcome with
      | returns timedOut => simp [EventHistory.returns, WaitOutcome.result] at hret
      | waits c => simp [WaitOutcome.waiter]
    · simp only [Function.update_of_ne hij]
      exact hi
  · cases hs : s.caller with
    | none => rfl
    | some k =>
      have hik : i ≠ k := by
        rintro rfl
        exact hne hs
      exact Function.update_of_ne hik ..

theorem sameCall_recorded (hi : (h.event.cv i).call.isSome = true) (hn : recorded h s = some h')
    (hret : h'.returns i = h.returns i) : SameCall h h' i := by
  have hn' := hn
  obtain ⟨r, hr, rfl⟩ := Option.map_eq_some_iff.mp hn'
  cases s with
  | signal =>
    rw [← Option.some.inj hr]
    refine ⟨?_, rfl⟩
    simpa [signal, notifyAll] using hi
  | reset =>
    rw [← Option.some.inj hr]
    exact ⟨hi, rfl⟩
  | wake j =>
    obtain ⟨cv, hcv, rfl⟩ := Option.map_eq_some_iff.mp hr
    refine ⟨?_, rfl⟩
    simpa [wakeOne_call hcv i] using hi
  | wait j =>
    simp only [step] at hr
    split_ifs at hr with haway
    have hstep : h.event.step (.wait j) = some (h.event.leave j h.event.wait) := if_pos haway
    exact sameCall_leave hi (.inr ⟨rfl, haway⟩) hstep rfl hn hret
  | waitWithTimeout j timeout now =>
    simp only [step] at hr
    split_ifs at hr with haway
    have hstep : h.event.step (.waitWithTimeout j timeout now) =
        some (h.event.leave j (h.event.waitWithTimeout timeout now)) := if_pos haway
    exact sameCall_leave hi (.inr ⟨rfl, haway⟩) hstep rfl hn hret
  | resume j status now =>
    obtain ⟨c, hc, hleave⟩ := Option.bind_eq_some_iff.mp hr
    split_ifs at hleave with hreports
    rw [← hleave] at hr
    exact sameCall_leave hi (.inl rfl) hr rfl hn hret

theorem returns_recorded (hn : recorded h s = some h') : h.returns i ≤ h'.returns i := by
  obtain ⟨r, hr, rfl⟩ := Option.map_eq_some_iff.mp hn
  simp [EventHistory.returns]

theorem signals_recorded (hn : recorded h s = some h') : h'.signals = h.signals + s.signals := by
  obtain ⟨r, hr, rfl⟩ := Option.map_eq_some_iff.mp hn
  rfl

theorem sameCall_run {es : List (EventStep Unit ι)} (hi : (h.event.cv i).call.isSome = true)
    (hr : run recorded h es = some h') (hret : h'.returns i = h.returns i) : SameCall h h' i := by
  induction es generalizing h with
  | nil =>
    cases hr
    exact ⟨hi, rfl⟩
  | cons s es ih =>
    obtain ⟨u, hu, hr⟩ := Option.bind_eq_some_iff.mp hr
    have hle := returns_recorded (i := i) hu
    have hge : u.returns i ≤ h'.returns i :=
      run_mono (f := fun h => h.returns i) (fun _ _ _ hn => returns_recorded hn) hr
    have hsame : SameCall h u i := sameCall_recorded hi hu (by omega)
    have hlater := ih hsame.call hr (by omega)
    exact ⟨hlater.call, hlater.started.trans hsame.started⟩

theorem releases_everyone (es : List (EventStep Unit ι))
    (hm : Meets recorded FewSignals (.create create) es)
    (hr : run recorded (.create create) es = some h) :
    (∀ front back u i, es = front ++ .signal () :: back →
      run recorded (.create create) front = some u → (u.event.cv i).call.isSome = true →
      h.returns i = u.returns i → ∀ c, h.event.cv i ≠ .blocked c) ∧
    ∀ r ∈ h.returned, r.timedOut = false →
      r.started.signaled = true ∨ r.started.signals < r.signals := by
  have hg := generations_run hm hr
  refine ⟨fun front back u i hes hu hi hret c hc => ?_, hg.returned⟩
  subst hes
  rw [run_append, hu, Option.bind_some] at hr
  obtain ⟨v, hv, hback⟩ := Option.bind_eq_some_iff.mp hr
  have hsame := sameCall_run hi hr hret
  have hgu := generations_run ((meets_append _ _).mp hm).1 hu
  have hfew := (hgu.threads i).few hi
  have hsignals := signals_recorded hv
  have hmono := run_mono (f := fun h => h.signals) (fun s e t hn => by
    rw [signals_recorded hn]
    exact Nat.le_add_right _ _) hback
  have hblocked := (hg.threads i).blocked c hc
  rw [hsame.started] at hblocked
  simp only [EventStep.signals] at hsignals hmono
  omega

def resetFirst : List (EventStep Unit Bool) :=
  [.wait false, .waitWithTimeout true ⟨9⟩ ⟨0⟩, .signal (), .reset, .resume true .noTimeout ⟨4⟩,
    .resume false .noTimeout ⟨5⟩]

theorem releases_everyone_resetFirst :
    ∃ h, run recorded (.create create) resetFirst = some h ∧
      h.returned.map (·.thread) = [true, false] ∧ h.event.signaled = false ∧
      ∀ r ∈ h.returned, r.timedOut = false →
        r.started.signaled = true ∨ r.started.signals < r.signals := by
  have hr := releases_everyone resetFirst (by decide) rfl
  exact ⟨_, rfl, rfl, rfl, hr.2⟩

end ManualResetWaitableEvent

end EnvironmentCheck
