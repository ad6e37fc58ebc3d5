import EnvironmentCheck.PendingTasks

namespace EnvironmentCheck.MessageLoopTaskQueues

open Transition

variable {C : Type} {s t : MessageLoopTaskQueues C} {q x : TaskQueueId} {thread : ThreadId}
  {v : TaskQueueId × DelayedTask C}

/-- `none` where the thread holds a null pointer, which the source dereferences. -/
def getCurrentTaskSourceGrade (s : MessageLoopTaskQueues C) (thread : ThreadId) :
    Option TaskSourceGrade :=
  s.tlsTaskSourceGrade thread

def RunsOn (thread : ThreadId) : QueueCall C → Prop
  | .getNextTaskToRun thread' _ _ => thread' = thread
  | _ => False

instance (thread : ThreadId) : DecidablePred (RunsOn (C := C) thread)
  | .getNextTaskToRun thread' _ _ => inferInstanceAs (Decidable (thread' = thread))
  | .createTaskQueue | .dispose _ | .disposeTasks _ | .registerTask _ _ _ _ | .addTaskObserver _ _ _
  | .removeTaskObserver _ _ | .setWakeable _ _ | .merge _ _ | .unmerge _ _
  | .pauseSecondarySource _ | .resumeSecondarySource _ => .isFalse id

/-- The element behind the front of the heap, if there is one, has the front's grade. -/
def SameGradeNext (s : MessageLoopTaskQueues C) (v : TaskQueueId × DelayedTask C) : Prop :=
  ∀ u ∈ (s.heap v.1 v.2.taskSourceGrade.heap)[1]?, u.taskSourceGrade = v.2.taskSourceGrade

theorem tls_wakeUpIfPending (h : s.wakeUpIfPending q = some t) :
    t.tlsTaskSourceGrade = s.tlsTaskSourceGrade := by
  obtain rfl | ⟨time, -, rfl⟩ := wakeUpIfPending_cases h
  · rfl
  · rfl

theorem tls_foldl_eraseEntry (xs : List TaskQueueId) (s : MessageLoopTaskQueues C) :
    (xs.foldl eraseEntry s).tlsTaskSourceGrade = s.tlsTaskSourceGrade := by
  induction xs generalizing s with
  | nil => rfl
  | cons x xs ih => exact ih (s.eraseEntry x)

theorem tls_foldlM_shutDownSource {xs : List TaskQueueId}
    (h : xs.foldlM shutDownSource s = some t) : t.tlsTaskSourceGrade = s.tlsTaskSourceGrade := by
  induction xs generalizing s with
  | nil =>
    cases h
    rfl
  | cons x xs ih =>
    rw [List.foldlM_cons] at h
    obtain ⟨u, hu, h⟩ := Option.bind_eq_some_iff.mp h
    obtain ⟨e, -, hu⟩ := Option.bind_eq_some_iff.mp hu
    rw [ih h, ← Option.some.inj hu]
    rfl

theorem tls_getNextTaskToRun {thread' : ThreadId} {time : TimePoint} {c : Closure C}
    (h : s.getNextTaskToRun thread' q time = some (c, t)) (hne : thread' ≠ thread) :
    t.tlsTaskSourceGrade thread = s.tlsTaskSourceGrade thread := by
  obtain ⟨-, -, rfl⟩ | ⟨top, -, -, ⟨-, -, rfl⟩ | ⟨-, -, src, -, rfl⟩⟩ := getNextTaskToRun_cases h
  · rfl
  · rfl
  · simp [setTls, popTask, rearm, modifyEntry, hne.symm]

theorem getCurrentTaskSourceGrade_next {c : QueueCall C} (hn : s.next c = some t)
    (hc : ¬ RunsOn thread c) :
    t.getCurrentTaskSourceGrade thread = s.getCurrentTaskSourceGrade thread := by
  unfold getCurrentTaskSourceGrade
  cases c with
  | createTaskQueue => rw [← Option.some.inj hn]; rfl
  | dispose q =>
    rw [(dispose_cases hn).2]
    exact congrFun (tls_foldl_eraseEntry _ _) thread
  | disposeTasks q => rw [tls_foldlM_shutDownSource (disposeTasks_cases hn).2]
  | registerTask q task time grade =>
    rw [tls_wakeUpIfPending (registerTask_cases hn).2]
    rfl
  | getNextTaskToRun thread' q time =>
    obtain ⟨⟨b, u⟩, hg, rfl⟩ := Option.map_eq_some_iff.mp hn
    exact tls_getNextTaskToRun hg hc
  | addTaskObserver q key callback => rw [addTaskObserver_cases hn]; rfl
  | removeTaskObserver q key => rw [removeTaskObserver_cases hn]; rfl
  | setWakeable q wakeable => rw [setWakeable_cases hn]; rfl
  | merge o x =>
    obtain ⟨⟨b, u⟩, hm, rfl⟩ := Option.map_eq_some_iff.mp hn
    obtain ⟨rfl, -⟩ | ⟨-, -, -, -, -, -, -, hw⟩ := merge_cases hm
    · rfl
    · rw [tls_wakeUpIfPending hw]
      rfl
  | unmerge o x =>
    obtain ⟨⟨b, u⟩, hm, rfl⟩ := Option.map_eq_some_iff.mp hn
    obtain ⟨-, rfl⟩ | ⟨-, -, -, w, hw, hw'⟩ := unmerge_cases hm
    · rfl
    · rw [tls_wakeUpIfPending hw', tls_wakeUpIfPending hw]
      rfl
  | pauseSecondarySource q => rw [(pauseSecondarySource_cases hn).2]; rfl
  | resumeSecondarySource q =>
    rw [tls_wakeUpIfPending (resumeSecondarySource_cases hn).2]
    rfl

theorem getCurrentTaskSourceGrade_run {es : List (QueueCall C)}
    (hes : ∀ c ∈ es, ¬ RunsOn thread c) (hr : run next s es = some t) :
    t.getCurrentTaskSourceGrade thread = s.getCurrentTaskSourceGrade thread := by
  induction es generalizing s with
  | nil =>
    cases hr
    rfl
  | cons c es ih =>
    obtain ⟨u, hu, hr⟩ := Option.bind_eq_some_iff.mp hr
    rw [ih (fun d hd => hes d (List.mem_cons_of_mem _ hd)) hr]
    exact getCurrentTaskSourceGrade_next hu (hes c List.mem_cons_self)

theorem getCurrentTaskSourceGrade_popped {top : TopTask C} {src : TaskSource C}
    (hsrc : s.source top.taskQueueId = some src)
    (ht : t = ((s.rearm q top.task.targetTime).popTask top.taskQueueId
      top.task.taskSourceGrade).setTls thread
        (((src.popTask top.task.taskSourceGrade).heap
          top.task.taskSourceGrade.heap).top.getD top.task).taskSourceGrade) :
    t.getCurrentTaskSourceGrade thread =
      some ((t.heap top.taskQueueId top.task.taskSourceGrade.heap).head?.getD
        top.task).taskSourceGrade := by
  have hpopped : t.source top.taskQueueId = some (src.popTask top.task.taskSourceGrade) := by
    rw [ht, source_popTask, if_pos rfl, source_rearm, hsrc, Option.map_some]
  rw [heap_eq hpopped, ht]
  simp [getCurrentTaskSourceGrade, setTls, PriorityQueue.top]

theorem grade_eq_iff (hp : Pops s t v) (ht : t.getCurrentTaskSourceGrade thread =
      some ((t.heap v.1 v.2.taskSourceGrade.heap).head?.getD v.2).taskSourceGrade) :
    t.getCurrentTaskSourceGrade thread = some v.2.taskSourceGrade ↔ s.SameGradeNext v := by
  rw [ht, SameGradeNext, hp.front, List.getElem?_cons_succ, ← List.head?_eq_getElem?]
  cases t.heap v.1 v.2.taskSourceGrade.heap with
  | nil => simp
  | cons u us => simp

theorem registerTask_mem_of_pending {thread₀ : ThreadId} {es : List (QueueCall C)}
    (hm : Meets next Allowed (create thread₀) es) (hr : run next (create thread₀) es = some s)
    {task : DelayedTask C} (ht : task ∈ s.pendingTasks x) :
    QueueCall.registerTask x task.task task.targetTime task.taskSourceGrade ∈ es := by
  induction es using List.reverseRecOn generalizing s with
  | nil =>
    cases hr
    cases ht
  | append_singleton es e ih =>
    obtain ⟨u, hu, hnext⟩ := run_snoc_iff.mp hr
    rw [meets_append] at hm
    have hreach : Reachable next Allowed (create thread₀) u := ⟨es, hm.1, hu⟩
    obtain ⟨F, hF⟩ := represents_reachable (fun _ _ hc => hc) hreach
    have hid := sourcesNamed_reachable hreach
    cases mem_pendingTasks_next hF hid hnext ht with
    | inl hold => exact List.mem_append_left _ (ih hm.1 hu hold)
    | inr hnew => exact List.mem_append_right _ (List.mem_singleton.mpr hnew.symm)

theorem grade_tracked_iff {thread₀ : ThreadId} {es : List (QueueCall C)}
    (hm : Meets next Allowed (create thread₀) es) (hr : run next (create thread₀) es = some s)
    {time : TimePoint} {c : C} (hg : s.getNextTaskToRun thread q time = some (some c, t)) :
    ∃ v : TaskQueueId × DelayedTask C,
      .registerTask v.1 (some c) v.2.targetTime v.2.taskSourceGrade ∈ es ∧
      v.2.task = some c ∧ Pops s t v ∧
      ∀ fs u, (∀ e ∈ fs, ¬ RunsOn thread e) → run next t fs = some u →
        (u.getCurrentTaskSourceGrade thread = some v.2.taskSourceGrade ↔ s.SameGradeNext v) := by
  have hreach : Reachable next Allowed (create thread₀) s := ⟨es, hm, hr⟩
  obtain ⟨F, hF⟩ := represents_reachable (fun _ _ hc => hc) hreach
  have hid := sourcesNamed_reachable hreach
  obtain ⟨hc, -⟩ | ⟨top, hp, htop, -, hc, -, hpop⟩ := getNextTaskToRun_pops hF hid hg
  · cases hc
  · have hpending : top.task ∈ s.pendingTasks top.taskQueueId :=
      hpop.perm.mem_iff.mpr List.mem_cons_self
    have hregistered := registerTask_mem_of_pending hm hr hpending
    rw [← hc] at hregistered
    refine ⟨(top.taskQueueId, top.task), hregistered, hc.symm, hpop, ?_⟩
    intro fs u hfs hu
    rw [getCurrentTaskSourceGrade_run hfs hu]
    apply grade_eq_iff hpop
    obtain ⟨-, hnone, -⟩ | ⟨top', -, htop', ⟨-, hnone, -⟩ | ⟨-, -, src, hsrc, ht⟩⟩ :=
      getNextTaskToRun_cases hg
    · cases hnone
    · cases hnone
    · obtain rfl : top = top' := Option.some.inj (htop.symm.trans htop')
      exact getCurrentTaskSourceGrade_popped hsrc ht

def twoGrades : List (QueueCall ℕ) :=
  [.createTaskQueue, .registerTask 0 (some 1) ⟨1⟩ .kUserInteraction,
    .registerTask 0 (some 2) ⟨2⟩ .kUnspecified]

theorem grade_tracked_iff_twoGrades : ∃ s t v,
    run next (create 0) twoGrades = some s ∧ s.getNextTaskToRun 7 0 ⟨5⟩ = some (some 1, t) ∧
      Pops s t v ∧ v.2.task = some 1 ∧
      (t.getCurrentTaskSourceGrade 7 = some v.2.taskSourceGrade ↔ s.SameGradeNext v) := by
  have hallowed : Meets next Allowed (create 0) twoGrades := by decide
  obtain ⟨v, -, htask, hpop, hgrade⟩ := grade_tracked_iff hallowed rfl
    (rfl : getNextTaskToRun _ 7 0 ⟨5⟩ = some (some 1, _))
  exact ⟨_, _, v, rfl, rfl, hpop, htask, hgrade [] _ (by simp) rfl⟩

theorem twoGrades_untracked : ∃ s t,
    run next (create 0) twoGrades = some s ∧ s.getNextTaskToRun 7 0 ⟨5⟩ = some (some 1, t) ∧
      (∀ time grade, .registerTask 0 (some 1) time grade ∈ twoGrades → grade = .kUserInteraction) ∧
      t.getCurrentTaskSourceGrade 7 = some .kUnspecified := by
  refine ⟨_, _, rfl, rfl, ?_, rfl⟩
  simp [twoGrades]

end EnvironmentCheck.MessageLoopTaskQueues
