import EnvironmentCheck.ManualResetWaitableEvent
import Mathlib.Data.BitVec

namespace EnvironmentCheck

open ConditionVariable Transition

/-- A call of `CountDown` that has come to zero is in `signaling` until it signals. How often `CountDown` was
called is in `counted`, and `returned` has what this was at each return of a `Wait`. -/
structure CountDownLatch (w : ℕ) (ι : Type) where
  count : BitVec w
  waitableEvent : ManualResetWaitableEvent ι
  signaling : ℕ
  counted : ℕ
  returned : List (ι × ℕ)

/-- `wake` is a wake-up without a notification. -/
inductive LatchStep (ι : Type) where
  | countDown
  | signal
  | wait (thread : ι)
  | wake (thread : ι)
  | resume (thread : ι) (now : TimePoint)

namespace CountDownLatch

variable {w : ℕ} {ι : Type}

def create (count : BitVec w) : CountDownLatch w ι :=
  ⟨count, if count = 0 then ManualResetWaitableEvent.create.signal else .create, 0, 0, []⟩

/-- `--count_ == 0` -/
def countDown (s : CountDownLatch w ι) : CountDownLatch w ι :=
  let count := s.count - 1
  { s with count, signaling := if count = 0 then s.signaling + 1 else s.signaling, counted := s.counted + 1 }

def onEvent [DecidableEq ι] (s : CountDownLatch w ι) (step : EventStep Unit ι) : Option (CountDownLatch w ι) :=
  (s.waitableEvent.step step).map fun (event, result) =>
    { s with waitableEvent := event, returned := s.returned ++ (result.map fun r => (r.1, s.counted)).toList }

def next [DecidableEq ι] (s : CountDownLatch w ι) : LatchStep ι → Option (CountDownLatch w ι)
  | .countDown => some s.countDown
  | .signal => if 0 < s.signaling then { s with signaling := s.signaling - 1 }.onEvent (.signal ()) else none
  | .wait i => s.onEvent (.wait i)
  | .wake i => s.onEvent (.wake i)
  | .resume i now => s.onEvent (.resume i .noTimeout now)

/-- The call of a thread that started to wait before there was a signal. -/
def firstWait : ManualWait := ⟨0, .wait⟩

/-- What holds until the counter has gone round: the counter comes to zero once, and no thread stays blocked
after the signal. -/
structure Early (count : ℕ) (s : CountDownLatch w ι) : Prop where
  once : (if s.waitableEvent.signaled then 1 else 0) + s.signaling = if count ≤ s.counted then 1 else 0
  signalId : s.waitableEvent.signaled = true → s.waitableEvent.signalId = 1
  blocked : ∀ i c, s.waitableEvent.cv i = .blocked c → s.waitableEvent.signaled = false

structure Inv (count : BitVec w) (s : CountDownLatch w ι) : Prop where
  count_eq : s.count = count - BitVec.ofNat w s.counted
  opened : s.waitableEvent.signaled = true ∨ 0 < s.signaling → count.toNat ≤ s.counted
  unsignaled : s.waitableEvent.signaled = false → s.waitableEvent.signalId = 0
  waiting : ∀ i c, (s.waitableEvent.cv i).call = some c → c = firstWait
  returned : ∀ r ∈ s.returned, count.toNat ≤ r.2
  early : s.counted < count.toNat + 2 ^ w → s.Early count.toNat

variable {count : BitVec w} {s t : CountDownLatch w ι} {i : ι} {step : LatchStep ι} {n : ℕ}

theorem inv_create (count : BitVec w) : Inv count (create count : CountDownLatch w ι) := by
  have hzero : count = 0 ↔ count.toNat = 0 := by
    rw [← BitVec.toNat_inj]
    rfl
  by_cases hc : count = 0
  · have hevent : (create count : CountDownLatch w ι).waitableEvent = ManualResetWaitableEvent.create.signal :=
      if_pos hc
    refine ⟨?_, ?_, ?_, ?_, nofun, fun _ => ⟨?_, ?_, ?_⟩⟩
    · change count = count - BitVec.ofNat w 0
      exact (sub_zero count).symm
    · exact fun _ => (hzero.mp hc).le
    · rw [hevent]
      exact nofun
    · rw [hevent]
      exact nofun
    · rw [hevent]
      exact (if_pos (hzero.mp hc).le).symm
    · rw [hevent]
      exact fun _ => rfl
    · rw [hevent]
      exact nofun
  · have hevent : (create count : CountDownLatch w ι).waitableEvent = .create := if_neg hc
    refine ⟨?_, ?_, ?_, ?_, nofun, fun _ => ⟨?_, ?_, ?_⟩⟩
    · change count = count - BitVec.ofNat w 0
      exact (sub_zero count).symm
    · rw [hevent]
      exact nofun
    · rw [hevent]
      exact fun _ => rfl
    · rw [hevent]
      exact nofun
    · rw [hevent]
      exact (if_neg fun hle => hc (hzero.mpr (Nat.le_zero.mp hle))).symm
    · rw [hevent]
      exact nofun
    · rw [hevent]
      exact nofun

/-- Before the counter has gone round, it is zero after as many calls as it counts, and never else. -/
theorem sub_eq_zero_iff (hn : n < count.toNat + 2 ^ w) : count - BitVec.ofNat w n = 0 ↔ n = count.toNat := by
  have hlt := count.isLt
  rw [sub_eq_zero, ← BitVec.toNat_inj, BitVec.toNat_ofNat]
  constructor
  · intro h
    obtain hle | hgt := Nat.lt_or_ge n (2 ^ w)
    · rw [h, Nat.mod_eq_of_lt hle]
    · have hmod := Nat.mod_eq_sub_mod hgt
      rw [Nat.mod_eq_of_lt (show n - 2 ^ w < 2 ^ w by omega)] at hmod
      omega
  · rintro rfl
    exact (Nat.mod_eq_of_lt hlt).symm

theorem Inv.countDown (h : Inv count s) : Inv count s.countDown := by
  have hcount : s.count - 1 = count - BitVec.ofNat w (s.counted + 1) := by
    rw [h.count_eq, sub_sub, BitVec.ofNat_add]
    rfl
  have hzero : s.counted + 1 < count.toNat + 2 ^ w → (s.count - 1 = 0 ↔ s.counted + 1 = count.toNat) := by
    intro hlt
    rw [hcount, sub_eq_zero_iff hlt]
  refine ⟨hcount, ?_, h.unsignaled, h.waiting, h.returned, ?_⟩
  · intro hopen
    change count.toNat ≤ s.counted + 1
    obtain hlt | hge := Nat.lt_or_ge (s.counted + 1) (count.toNat + 2 ^ w)
    · by_cases hz : s.count - 1 = 0
      · exact ((hzero hlt).mp hz).ge
      · obtain hsignaled | hsignaling := hopen
        · exact (h.opened (.inl hsignaled)).trans (Nat.le_succ _)
        · change 0 < (if s.count - 1 = 0 then s.signaling + 1 else s.signaling) at hsignaling
          rw [if_neg hz] at hsignaling
          exact (h.opened (.inr hsignaling)).trans (Nat.le_succ _)
    · omega
  · intro hlt
    change s.counted + 1 < count.toNat + 2 ^ w at hlt
    have he := h.early (by omega)
    refine ⟨?_, he.signalId, he.blocked⟩
    have honce := he.once
    change (if s.waitableEvent.signaled then 1 else 0) +
      (if s.count - 1 = 0 then s.signaling + 1 else s.signaling) = if count.toNat ≤ s.counted + 1 then 1 else 0
    by_cases hz : s.count - 1 = 0
    · have heq := (hzero hlt).mp hz
      rw [if_neg (show ¬ count.toNat ≤ s.counted by omega)] at honce
      rw [if_pos hz, if_pos heq.ge]
      omega
    · have hne : s.counted + 1 ≠ count.toNat := fun heq => hz ((hzero hlt).mpr heq)
      rw [if_neg hz, honce]
      exact if_congr (by omega) rfl rfl

variable [DecidableEq ι]

theorem Inv.signal (h : Inv count s) (hsignaling : 0 < s.signaling)
    (hnext : { s with signaling := s.signaling - 1 }.onEvent (.signal ()) = some t) : Inv count t := by
  cases hnext
  have hopen := h.opened (.inr hsignaling)
  refine ⟨h.count_eq, fun _ => hopen, nofun, ?_, ?_, ?_⟩
  · intro i c hc
    change (s.waitableEvent.cv i).notify.call = some c at hc
    rw [Waiter.notify_call] at hc
    exact h.waiting i c hc
  · intro r hr
    change r ∈ s.returned ++ [] at hr
    rw [List.append_nil] at hr
    exact h.returned r hr
  · intro hlt
    have he := h.early hlt
    have honce := he.once
    rw [if_pos hopen] at honce
    have hfalse : s.waitableEvent.signaled = false := by
      apply Bool.eq_false_of_not_eq_true
      intro htrue
      rw [if_pos htrue] at honce
      omega
    rw [hfalse, if_neg Bool.false_ne_true] at honce
    refine ⟨?_, fun _ => ?_, fun i c hc => absurd hc (Waiter.notify_ne_blocked _ c)⟩
    · change 1 + (s.signaling - 1) = if count.toNat ≤ s.counted then 1 else 0
      rw [if_pos hopen]
      omega
    · change s.waitableEvent.signalId + 1 = 1
      rw [h.unsignaled hfalse]
      rfl

/-- A step of a thread at the event: it waits where there was no signal, and returns only after one. -/
theorem Inv.place (h : Inv count s) {x : Waiter ManualWait} {returned : List (ι × ℕ)}
    (hx : ∀ c, x.call = some c → c = firstWait)
    (hblocked : s.Early count.toNat → ∀ c, x = .blocked c → s.waitableEvent.signaled = false)
    (hreturned : ∀ r ∈ returned, s.waitableEvent.signaled = true ∧ r.2 = s.counted) :
    Inv count { s with
      waitableEvent := { s.waitableEvent with cv := Function.update s.waitableEvent.cv i x }
      returned := s.returned ++ returned } := by
  refine ⟨h.count_eq, h.opened, h.unsignaled, ?_, ?_, ?_⟩
  · intro j c hc
    change (Function.update s.waitableEvent.cv i x j).call = some c at hc
    by_cases hj : j = i
    · subst hj
      rw [Function.update_self] at hc
      exact hx c hc
    · rw [Function.update_of_ne hj] at hc
      exact h.waiting j c hc
  · intro r hr
    obtain hr | hr := List.mem_append.mp hr
    · exact h.returned r hr
    · obtain ⟨hsignaled, heq⟩ := hreturned r hr
      rw [heq]
      exact h.opened (.inl hsignaled)
  · intro hlt
    have he := h.early hlt
    refine ⟨he.once, he.signalId, ?_⟩
    intro j c hc
    change Function.update s.waitableEvent.cv i x j = .blocked c at hc
    by_cases hj : j = i
    · subst hj
      rw [Function.update_self] at hc
      exact hblocked he c hc
    · rw [Function.update_of_ne hj] at hc
      exact he.blocked j c hc

theorem Inv.wait (h : Inv count s) (hnext : s.onEvent (.wait i) = some t) : Inv count t := by
  obtain ⟨r, hr, rfl⟩ := Option.map_eq_some_iff.mp hnext
  obtain ⟨-, hr⟩ := Option.ite_none_right_eq_some.mp hr
  cases hr
  cases hsignaled : s.waitableEvent.signaled with
  | true =>
    have hwait : s.waitableEvent.wait = .returns false := if_pos hsignaled
    rw [hwait]
    apply h.place (i := i)
    · exact nofun
    · exact nofun
    · intro r hr
      obtain rfl := List.mem_singleton.mp hr
      exact ⟨hsignaled, rfl⟩
  | false =>
    have hwait : s.waitableEvent.wait = .waits firstWait := by
      unfold ManualResetWaitableEvent.wait
      rw [hsignaled, if_neg Bool.false_ne_true, h.unsignaled hsignaled]
      rfl
    rw [hwait]
    apply h.place (i := i)
    · intro c hc
      exact (Option.some.inj hc).symm
    · exact fun _ _ _ => hsignaled
    · exact nofun

theorem Inv.wake (h : Inv count s) (hnext : s.onEvent (.wake i) = some t) : Inv count t := by
  obtain ⟨r, hr, rfl⟩ := Option.map_eq_some_iff.mp hnext
  obtain ⟨cv, hcv, rfl⟩ := Option.map_eq_some_iff.mp hr
  obtain ⟨x, hx, rfl⟩ := Option.map_eq_some_iff.mp hcv
  obtain ⟨c, hblocked, rfl⟩ := Waiter.wake_cases hx
  apply h.place (i := i)
  · intro c' hc'
    cases hc'
    exact h.waiting i c (by rw [hblocked]; rfl)
  · exact nofun
  · exact nofun

theorem Inv.resume (h : Inv count s) {now : TimePoint} (hnext : s.onEvent (.resume i .noTimeout now) = some t) :
    Inv count t := by
  obtain ⟨r, hr, rfl⟩ := Option.map_eq_some_iff.mp hnext
  obtain ⟨c, hc, hr⟩ := Option.bind_eq_some_iff.mp hr
  obtain ⟨-, hr⟩ := Option.ite_none_right_eq_some.mp hr
  cases hr
  obtain rfl := h.waiting i c (Waiter.call_of_ready hc)
  by_cases hid : s.waitableEvent.signalId = 0
  · have hwake : s.waitableEvent.wakeUp .noTimeout now firstWait = .waits firstWait := if_pos hid
    rw [hwake]
    apply h.place (i := i)
    · intro c hc
      exact (Option.some.inj hc).symm
    · intro he _ _
      apply Bool.eq_false_of_not_eq_true
      intro htrue
      rw [he.signalId htrue] at hid
      cases hid
    · exact nofun
  · have hwake : s.waitableEvent.wakeUp .noTimeout now firstWait = .returns false := if_neg hid
    rw [hwake]
    apply h.place (i := i)
    · exact nofun
    · exact nofun
    · intro r hr
      obtain rfl := List.mem_singleton.mp hr
      refine ⟨?_, rfl⟩
      apply Bool.eq_true_of_not_eq_false
      exact fun hfalse => hid (h.unsignaled hfalse)

theorem Inv.next (h : Inv count s) (hnext : s.next step = some t) : Inv count t := by
  cases step with
  | countDown =>
    cases hnext
    exact h.countDown
  | signal =>
    obtain ⟨hsignaling, hnext⟩ := Option.ite_none_right_eq_some.mp hnext
    exact h.signal hsignaling hnext
  | wait i => exact h.wait hnext
  | wake i => exact h.wake hnext
  | resume i now => exact h.resume hnext

/-- The latch has opened: nobody is blocked, and whoever waits or begins to wait returns. -/
structure Opened (s : CountDownLatch w ι) : Prop where
  blocked : ∀ i c, s.waitableEvent.cv i ≠ .blocked c
  waits : ∀ i, s.waitableEvent.cv i = .away →
    ∃ t, s.next (.wait i) = some t ∧ t.returned = s.returned ++ [(i, s.counted)]
  resumes : ∀ i now, s.waitableEvent.cv i ≠ .away →
    ∃ t, s.next (.resume i now) = some t ∧ t.returned = s.returned ++ [(i, s.counted)]

theorem Inv.isOpened (h : Inv count s) (hcounted : count.toNat ≤ s.counted)
    (hround : s.counted < count.toNat + 2 ^ w) (hsignaling : s.signaling = 0) : s.Opened := by
  have he := h.early hround
  have honce := he.once
  rw [hsignaling, if_pos hcounted] at honce
  have hsignaled : s.waitableEvent.signaled = true := by
    apply Bool.eq_true_of_not_eq_false
    intro hfalse
    rw [hfalse, if_neg Bool.false_ne_true] at honce
    omega
  have hblocked : ∀ i c, s.waitableEvent.cv i ≠ .blocked c := by
    intro i c hc
    rw [he.blocked i c hc] at hsignaled
    cases hsignaled
  refine ⟨hblocked, ?_, ?_⟩
  · intro i haway
    have hwait : s.waitableEvent.wait = .returns false := if_pos hsignaled
    have hstep : s.waitableEvent.step (.wait i) = some (s.waitableEvent.leave i (.returns false)) := by
      rw [← hwait]
      exact if_pos (by rw [haway]; rfl)
    refine ⟨_, congrArg (Option.map _) hstep, rfl⟩
  · intro i now hne
    have hready : (s.waitableEvent.cv i).ready = some firstWait := by
      cases hcv : s.waitableEvent.cv i with
      | away => exact absurd hcv hne
      | blocked c => exact absurd hcv (hblocked i c)
      | notified c => exact congrArg some (h.waiting i c (by rw [hcv]; rfl))
      | awake c => exact congrArg some (h.waiting i c (by rw [hcv]; rfl))
    have hwake : s.waitableEvent.wakeUp .noTimeout now firstWait = .returns false := by
      apply if_neg
      rw [he.signalId hsignaled]
      exact nofun
    have hstep : s.waitableEvent.step (.resume i .noTimeout now) =
        some (s.waitableEvent.leave i (.returns false)) := by
      change (s.waitableEvent.cv i).ready.bind _ = _
      rw [hready, Option.bind_some, hwake]
      exact if_pos rfl
    exact ⟨_, congrArg (Option.map _) hstep, rfl⟩

/-- No `Wait` returns before the latch is counted down, and every one does as soon as no call of `CountDown` is
under way, until the counter has gone round. -/
theorem countDownLatch_opens {steps : List (LatchStep ι)} (h : run next (create count) steps = some s) :
    (∀ r ∈ s.returned, count.toNat ≤ r.2) ∧
      (count.toNat ≤ s.counted → s.counted < count.toNat + 2 ^ w → s.signaling = 0 → s.Opened) := by
  have hinv : Inv count s := run_keeps (fun _ _ _ hs hnext => hs.next hnext) (inv_create count) h
  exact ⟨hinv.returned, hinv.isOpened⟩

/-- Two threads wait; one of them is awake when the latch opens, and the other is told. -/
def openedTwice : List (LatchStep Bool) :=
  [.wait false, .countDown, .wake false, .wait true, .countDown, .signal, .resume true ⟨0⟩]

theorem countDownLatch_opens_openedTwice :
    ∃ s : CountDownLatch 64 Bool, run next (create 2) openedTwice = some s ∧
      s.returned = [(true, 2)] ∧ s.Opened :=
  ⟨_, rfl, rfl, (@countDownLatch_opens 64 Bool 2 _ _ openedTwice rfl).2 (by decide) (by decide) rfl⟩

end CountDownLatch

end EnvironmentCheck
