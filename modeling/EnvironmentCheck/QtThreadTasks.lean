import EnvironmentCheck.QtThreadRuns

namespace EnvironmentCheck.QtThread

open Transition

def NoTaskLost (s : QtThread) : Prop :=
  s.started.Nodup ∧ s.started <+: s.added ∧
    (s.exitCall = .returned → ∀ i ∈ s.promised, i ∈ s.executed)

instance (s : QtThread) : Decidable s.NoTaskLost :=
  inferInstanceAs (Decidable (_ ∧ _ ∧ (_ → _)))

/-- The loop finds `m_exit` set only where nothing is pending that was added before `exit()`. -/
def Prompt (s : QtThread) : QtThreadStep → Prop
  | .loop => s.qtThread = .test → s.exit = true → ∀ r ∈ s.pendingRunnables, r.call ∉ s.promised
  | _ => True

instance (s : QtThread) (step : QtThreadStep) : Decidable (s.Prompt step) :=
  match step with
  | .loop => inferInstanceAs (Decidable (_ → _ → _))
  | .callPost | .callRun | .add _ _ | .acquire _ | .callExit | .setExit | .notifyExit | .joined
  | .wake => .isTrue trivial

variable {s t : QtThread} {step : QtThreadStep} {steps : List QtThreadStep}

theorem next_ended_iff (h : s.next step = some t) (hstep : step ≠ .loop) :
    (t.qtThread = .ended ↔ s.qtThread = .ended) ∧ t.executed = s.executed ∧
      (s.exitCall ≠ .notCalled → t.promised = s.promised) := by
  cases step with
  | callPost =>
    cases h
    exact ⟨Iff.rfl, rfl, fun _ => rfl⟩
  | callRun =>
    cases h
    exact ⟨Iff.rfl, rfl, fun _ => rfl⟩
  | add i toJoin =>
    obtain ⟨-, ⟨-, rfl⟩ | ⟨-, rfl⟩⟩ := next_add h
    · exact ⟨add_ended, rfl, fun _ => rfl⟩
    · exact ⟨add_ended, rfl, fun _ => rfl⟩
  | acquire i =>
    obtain ⟨-, rfl⟩ := next_acquire h
    exact ⟨Iff.rfl, rfl, fun _ => rfl⟩
  | callExit =>
    obtain ⟨hcall, h⟩ := Option.ite_none_right_eq_some.mp h
    cases h
    exact ⟨Iff.rfl, rfl, fun hne => absurd hcall hne⟩
  | setExit =>
    obtain ⟨-, h⟩ := Option.ite_none_right_eq_some.mp h
    cases h
    exact ⟨Iff.rfl, rfl, fun _ => rfl⟩
  | notifyExit =>
    obtain ⟨-, h⟩ := Option.ite_none_right_eq_some.mp h
    cases h
    exact ⟨LoopPoint.notify_eq_ended, rfl, fun _ => rfl⟩
  | joined =>
    obtain ⟨-, h⟩ := Option.ite_none_right_eq_some.mp h
    cases h
    exact ⟨Iff.rfl, rfl, fun _ => rfl⟩
  | loop => exact absurd rfl hstep
  | wake =>
    obtain ⟨hp, h⟩ := Option.ite_none_right_eq_some.mp h
    cases h
    exact ⟨iff_of_false nofun (fun hended => nomatch hp.symm.trans hended), rfl, fun _ => rfl⟩

theorem Inv.ended_next (hi : s.Inv) (hs : s.qtThread = .ended) (h : s.next step = some t) :
    t.qtThread = .ended ∧ t.promised = s.promised ∧ t.executed = s.executed := by
  have hstep : step ≠ .loop := by
    rintro rfl
    change s.resume s.qtThread = some t at h
    rw [hs] at h
    cases h
  obtain ⟨hended, hexecuted, hpromised⟩ := next_ended_iff h hstep
  exact ⟨hended.mpr hs, hpromised (hi.flag.mp (hi.ended hs)).1, hexecuted⟩

theorem resume_ended (ht : t.qtThread = .ended) (h : s.resume s.qtThread = some t) :
    s.qtThread = .test ∧ s.exit = true ∧ t = { s with qtThread := .ended } := by
  cases hp : s.qtThread with
  | test =>
    rw [hp] at h
    cases h
    change (if s.exit = true then LoopPoint.ended else .entering) = .ended at ht
    split_ifs at ht with hexit
    refine ⟨rfl, hexit, ?_⟩
    rw [if_pos hexit]
  | entering =>
    rw [hp] at h
    cases h
    split_ifs at ht
    cases ht
  | waiting =>
    rw [hp] at h
    cases h
  | woken =>
    rw [hp] at h
    cases h
    cases ht
  | running rs =>
    cases rs with
    | nil =>
      rw [hp] at h
      cases h
      cases ht
    | cons r rs =>
      rw [hp] at h
      cases h
      cases ht
  | inside r rs =>
    rw [hp] at h
    cases h
    change (if r.semaphore = true then LoopPoint.releasing r.call rs else .running rs) = .ended at ht
    split_ifs at ht
  | releasing i rs =>
    rw [hp] at h
    cases h
    cases ht
  | ended =>
    rw [hp] at h
    cases h

/-- The loop ends in its test of `m_exit` and nowhere else. -/
theorem next_ended (hs : s.qtThread ≠ .ended) (ht : t.qtThread = .ended) (h : s.next step = some t) :
    step = .loop ∧ s.qtThread = .test ∧ s.exit = true ∧ t = { s with qtThread := .ended } := by
  by_cases hstep : step = .loop
  · subst hstep
    exact ⟨rfl, resume_ended ht h⟩
  · exact absurd ((next_ended_iff h hstep).1.mp ht) hs

/-- At its test the loop has executed all that it has taken from the pending list. -/
theorem Inv.executed_iff (hi : s.Inv) (hs : s.qtThread = .test) :
    (∀ i ∈ s.promised, i ∈ s.executed) ↔ ∀ r ∈ s.pendingRunnables, r.call ∉ s.promised := by
  have horder := hi.order
  have hcurrent := hi.current
  rw [hs] at horder hcurrent
  have hstarted : s.started = s.executed := hcurrent.trans (List.append_nil _)
  have hadded : s.added = s.executed ++ s.pendingRunnables.map Runnable.call := by
    rw [← hstarted]
    exact horder
  have hdistinct := hi.distinct
  rw [hadded] at hdistinct
  constructor
  · intro hall r hr hmem
    exact (List.nodup_append.mp hdistinct).2.2 r.call (hall r.call hmem) r.call
      (List.mem_map_of_mem hr) rfl
  · intro hnone i hmem
    have hin := hi.promised.subset hmem
    rw [hadded] at hin
    obtain hin | hin := List.mem_append.mp hin
    · exact hin
    · obtain ⟨r, hr, rfl⟩ := List.mem_map.mp hin
      exact absurd hmem (hnone r hr)

def Fulfilled (s : QtThread) : Prop := s.qtThread = .ended → ∀ i ∈ s.promised, i ∈ s.executed

theorem Inv.fulfilled_next (hi : s.Inv) (h : s.next step = some t) (hf : s.Fulfilled) :
    t.Fulfilled ↔ s.Prompt step := by
  by_cases hs : s.qtThread = .ended
  · obtain ⟨-, hpromised, hexecuted⟩ := hi.ended_next hs h
    apply iff_of_true
    · intro _
      rw [hpromised, hexecuted]
      exact hf hs
    · cases step with
      | loop => exact fun htest => nomatch hs.symm.trans htest
      | _ => trivial
  · by_cases ht : t.qtThread = .ended
    · obtain ⟨rfl, htest, hexit, rfl⟩ := next_ended hs ht h
      constructor
      · intro hall _ _
        exact (hi.executed_iff htest).mp (hall rfl)
      · intro hprompt _
        exact (hi.executed_iff htest).mpr (hprompt htest hexit)
    · apply iff_of_true (fun hended => absurd hended ht)
      cases step with
      | loop =>
        intro htest hexit
        change s.resume s.qtThread = some t at h
        rw [htest] at h
        cases h
        exact absurd (if_pos hexit) ht
      | _ => trivial

theorem Inv.fulfilled_back (hi : s.Inv) (h : s.next step = some t) (hf : t.Fulfilled) :
    s.Fulfilled := by
  intro hs
  obtain ⟨ht, hpromised, hexecuted⟩ := hi.ended_next hs h
  rw [← hpromised, ← hexecuted]
  exact hf ht

theorem inv_of_run (h : run next create steps = some s) : s.Inv := by
  apply @Reachable.invariant QtThread QtThreadStep next (fun _ _ => True) Inv create s inv_create
  · intro s step t _ hi _ hn
    exact hi.next_inv hn
  · exact ⟨steps, meets_true _ _, h⟩

theorem noTaskLost_iff (h : run next create steps = some s) :
    s.NoTaskLost ↔ (s.exitCall = .returned → Meets next Prompt create steps) := by
  have hi := inv_of_run h
  have hmeets : s.Fulfilled ↔ Meets next Prompt create steps := by
    apply @last_iff_meets QtThread QtThreadStep next Prompt Fulfilled create s steps Inv inv_create
    · exact nofun
    · intro s step t hi hn
      exact hi.next_inv hn
    · intro s step t hi hn
      exact hi.fulfilled_next hn
    · intro s step t hi hn
      exact hi.fulfilled_back hn
    · exact h
  have hfront : s.started <+: s.added := ⟨_, hi.order.symm⟩
  rw [NoTaskLost, and_iff_right (hi.distinct.sublist hfront.sublist), and_iff_right hfront, ← hmeets]
  constructor
  · intro hall hreturned _
    exact hall hreturned
  · intro hf hreturned
    exact hf hreturned (hi.returned hreturned)

def drainedExit : List QtThreadStep :=
  [.loop, .callRun, .add 0 false, .loop, .loop, .callExit, .setExit, .loop, .loop, .acquire 0,
    .notifyExit, .loop, .loop, .joined]

theorem noTaskLost_iff_drainedExit :
    ∃ s, run next create drainedExit = some s ∧ s.exitCall = .returned ∧ s.executed = [0] ∧
      (s.NoTaskLost ↔ (s.exitCall = .returned → Meets next Prompt create drainedExit)) :=
  ⟨_, rfl, rfl, rfl, @noTaskLost_iff _ drainedExit rfl⟩

/-- `exit()` is called before the loop has taken what was posted. -/
def earlyExit : List QtThreadStep :=
  [.callPost, .add 0 false, .callExit, .setExit, .loop, .notifyExit, .joined]

theorem earlyExit_loses_task :
    ∃ s, run next create earlyExit = some s ∧ s.promised = [0] ∧ s.executed = [] ∧ ¬ s.NoTaskLost :=
  ⟨_, rfl, rfl, rfl, by decide⟩

end EnvironmentCheck.QtThread
