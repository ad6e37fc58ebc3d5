import EnvironmentCheck.Library.Transition

namespace EnvironmentCheck

open Transition

inductive RunPhase where
  | notStarted
  | entered
  | testing
  | polling
  | left
  deriving DecidableEq

inductive TerminateCall where
  | terminated
  | notRunning
  | woken
  deriving DecidableEq

structure MessageLoopAndroid where
  terminated : Bool
  running : Bool
  wakePending : Bool
  phase : RunPhase
  calls : List TerminateCall

inductive AndroidEvent where
  | testTerminated
  | storeRunning
  | testRunning
  | pollWake
  | pollCallback
  | pollError
  | doTerminate
  | storeNotRunning (call : ℕ)
  | wake (call : ℕ)

namespace MessageLoopAndroid

def create : MessageLoopAndroid := ⟨false, false, false, .notStarted, []⟩

def next (l : MessageLoopAndroid) : AndroidEvent → Option MessageLoopAndroid
  | .testTerminated =>
    if l.phase = .notStarted then
      some { l with phase := if l.terminated then .left else .entered }
    else none
  | .storeRunning =>
    if l.phase = .entered then some { l with running := true, phase := .testing } else none
  | .testRunning =>
    if l.phase = .testing then some { l with phase := if l.running then .polling else .left } else none
  | .pollWake =>
    if l.phase = .polling ∧ l.wakePending then
      some { l with wakePending := false, phase := .testing }
    else none
  | .pollCallback => if l.phase = .polling then some { l with phase := .testing } else none
  | .pollError =>
    if l.phase = .polling then some { l with running := false, phase := .testing } else none
  | .doTerminate => some { l with terminated := true, calls := l.calls ++ [.terminated] }
  | .storeNotRunning call =>
    if l.calls[call]? = some .terminated then
      some { l with running := false, calls := l.calls.set call .notRunning }
    else none
  | .wake call =>
    if l.calls[call]? = some .notRunning then
      some { l with wakePending := true, calls := l.calls.set call .woken }
    else none

/-- `DoTerminate` has completed, and the loop's thread sleeps on in `ALooper_pollOnce`. -/
def Stuck (l : MessageLoopAndroid) : Prop :=
  .woken ∈ l.calls ∧ l.phase = .polling ∧ l.running = true ∧ l.wakePending = false

def StoresFirst (l : MessageLoopAndroid) : AndroidEvent → Prop
  | .storeRunning => ∀ call ∈ l.calls, call = .terminated
  | _ => True

instance (l : MessageLoopAndroid) : DecidablePred l.StoresFirst
  | .storeRunning => inferInstanceAs (Decidable (∀ call ∈ l.calls, call = .terminated))
  | .testTerminated | .testRunning | .pollWake | .pollCallback | .pollError | .doTerminate
  | .storeNotRunning _ | .wake _ => .isTrue trivial

def Cleared (l : MessageLoopAndroid) : Prop :=
  (∃ call ∈ l.calls, call ≠ .terminated) → l.running = false

variable {l m : MessageLoopAndroid} {e : AndroidEvent}

theorem cleared_next (h : l.Cleared) (hc : l.StoresFirst e) (hn : l.next e = some m) :
    m.Cleared := by
  cases e with
  | testTerminated =>
    simp only [next] at hn
    split_ifs at hn <;> rw [← Option.some.inj hn] <;> exact h
  | storeRunning =>
    simp only [next] at hn
    split_ifs at hn
    rw [← Option.some.inj hn]
    rintro ⟨call, hmem, hne⟩
    exact absurd (hc call hmem) hne
  | testRunning =>
    simp only [next] at hn
    split_ifs at hn <;> rw [← Option.some.inj hn] <;> exact h
  | pollWake =>
    simp only [next] at hn
    split_ifs at hn
    rw [← Option.some.inj hn]
    exact h
  | pollCallback =>
    simp only [next] at hn
    split_ifs at hn
    rw [← Option.some.inj hn]
    exact h
  | pollError =>
    simp only [next] at hn
    split_ifs at hn
    rw [← Option.some.inj hn]
    exact fun _ => rfl
  | doTerminate =>
    rw [← Option.some.inj hn]
    rintro ⟨call, hmem, hne⟩
    rcases List.mem_append.mp hmem with hold | hnew
    · exact h ⟨call, hold, hne⟩
    · exact absurd (List.mem_singleton.mp hnew) hne
  | storeNotRunning i =>
    simp only [next] at hn
    split_ifs at hn
    rw [← Option.some.inj hn]
    exact fun _ => rfl
  | wake i =>
    simp only [next] at hn
    split_ifs at hn with hcall
    rw [← Option.some.inj hn]
    intro _
    exact h ⟨.notRunning, List.mem_of_getElem? hcall, by decide⟩

theorem next_testRunning (hphase : l.phase = .testing) (hrunning : l.running = true) :
    l.next .testRunning = some { l with phase := .polling } := by
  simp [next, hphase, hrunning]

theorem run_stuck_of_woken (hphase : l.phase = .testing) (hrunning : l.running = true)
    (hwoken : .woken ∈ l.calls) : ∃ es m, run next l es = some m ∧ m.Stuck := by
  cases hwake : l.wakePending with
  | false =>
    refine ⟨[.testRunning], _, run_cons_some (next_testRunning hphase hrunning), ?_⟩
    exact ⟨hwoken, rfl, hrunning, hwake⟩
  | true =>
    have hpoll : next { l with phase := .polling } .pollWake =
        some { l with wakePending := false, phase := .testing } := by
      simp [next, hwake]
    refine ⟨[.testRunning, .pollWake, .testRunning],
      { l with wakePending := false, phase := .polling }, ?_, hwoken, rfl, hrunning, rfl⟩
    have htest : next { l with wakePending := false, phase := .testing } .testRunning =
        some { l with wakePending := false, phase := .polling } :=
      next_testRunning rfl hrunning
    rw [run_cons_some (next_testRunning hphase hrunning), run_cons_some hpoll,
      run_cons_some htest, run_nil]

theorem run_stuck_of_not_storesFirst (hc : ¬ l.StoresFirst e) (hn : l.next e = some m) :
    ∃ es u, run next m es = some u ∧ u.Stuck := by
  cases e with
  | storeRunning =>
    have hcalls : ¬ ∀ call ∈ l.calls, call = .terminated := hc
    push Not at hcalls
    obtain ⟨call, hmem, hne⟩ := hcalls
    simp only [next] at hn
    split_ifs at hn
    rw [← Option.some.inj hn]
    cases call with
    | terminated => exact absurd rfl hne
    | woken => exact run_stuck_of_woken rfl rfl hmem
    | notRunning =>
      obtain ⟨i, hlt, hi⟩ := List.mem_iff_getElem.mp hmem
      have hcall : l.calls[i]? = some .notRunning := by
        rw [List.getElem?_eq_getElem hlt, hi]
      have hwake : next { l with running := true, phase := .testing } (.wake i) =
          some { l with
            running := true
            phase := .testing
            wakePending := true
            calls := l.calls.set i .woken } := by
        simp [next, hcall]
      have hwoken : .woken ∈ l.calls.set i .woken := List.mem_set hlt _
      obtain ⟨es, u, hrun, hstuck⟩ := run_stuck_of_woken (l := { l with
        running := true
        phase := .testing
        wakePending := true
        calls := l.calls.set i .woken }) rfl rfl hwoken
      exact ⟨.wake i :: es, u, (run_cons_some hwake).trans hrun, hstuck⟩
  | _ => exact absurd trivial hc

theorem no_lost_termination (l m : MessageLoopAndroid) (e : AndroidEvent) :
    (Reachable next StoresFirst create l → ¬ l.Stuck) ∧
      (¬ l.StoresFirst e → l.next e = some m → ∃ es u, run next m es = some u ∧ u.Stuck) := by
  constructor
  · rintro hr ⟨hwoken, -, hrunning, -⟩
    have hcleared : l.Cleared := by
      apply hr.invariant
      · rintro ⟨call, hmem, -⟩
        cases hmem
      · intro l e m _ h hc hn
        exact cleared_next h hc hn
    have hstopped := hcleared ⟨.woken, hwoken, by decide⟩
    rw [hrunning] at hstopped
    cases hstopped
  · intro hc hn
    exact run_stuck_of_not_storesFirst hc hn

def promptRun : List AndroidEvent :=
  [.testTerminated, .storeRunning, .testRunning, .doTerminate, .storeNotRunning 0, .wake 0]

theorem no_lost_termination_promptRun :
    ∃ l, run next create promptRun = some l ∧ l.phase = .polling ∧ ¬ l.Stuck := by
  have hm : Meets next StoresFirst create promptRun := by decide
  exact ⟨_, rfl, rfl, (no_lost_termination _ create .doTerminate).1 ⟨promptRun, hm, rfl⟩⟩

def overtakenRun : List AndroidEvent :=
  [.testTerminated, .doTerminate, .storeNotRunning 0, .wake 0, .storeRunning, .testRunning,
    .pollWake, .testRunning]

theorem overtakenRun_is_stuck : ∃ l, run next create overtakenRun = some l ∧ l.Stuck :=
  ⟨_, rfl, by decide, rfl, rfl, rfl⟩

end MessageLoopAndroid

end EnvironmentCheck
