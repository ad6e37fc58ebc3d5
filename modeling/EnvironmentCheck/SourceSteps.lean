import EnvironmentCheck.MergeForest

namespace EnvironmentCheck.MessageLoopTaskQueues

variable {C : Type} {s t : MessageLoopTaskQueues C} {q o x : TaskQueueId}

theorem source_setMerged : (s.setMerged o x).source q = s.source q := by
  unfold setMerged
  rw [source_modifyEntry, source_modifyEntry]
  all_goals
    intro e
    rfl

theorem source_setUnmerged : (s.setUnmerged o x).source q = s.source q := by
  unfold setUnmerged
  rw [source_modifyEntry, source_modifyEntry]
  all_goals
    intro e
    rfl

theorem source_merge {b : Bool} (h : s.merge o x = some (b, t)) : t.source q = s.source q := by
  rcases merge_cases h with ⟨rfl, -⟩ | ⟨-, -, -, -, -, -, -, hw⟩
  · rfl
  · rw [source_wakeUpIfPending hw, source_setMerged]

theorem source_unmerge {b : Bool} (h : s.unmerge o x = some (b, t)) : t.source q = s.source q := by
  rcases unmerge_cases h with ⟨-, rfl⟩ | ⟨-, -, -, u, hu, ht⟩
  · rfl
  · rw [source_wakeUpIfPending ht, source_wakeUpIfPending hu, source_setUnmerged]

theorem source_addTask {task : DelayedTask C} :
    (s.addTask q task).source x =
      if x = q then (s.source q).map (·.registerTask task) else s.source x :=
  source_modifyEntry_map (s := { s with order := s.order + 1 }) fun _ => rfl

theorem source_registerTask {task : Closure C} {time : TimePoint} {grade : TaskSourceGrade}
    (h : s.registerTask q task time grade = some t) :
    t.source x = if x = q then
      (s.source q).map (·.registerTask ⟨orderStamp s.order, task, time, grade⟩)
      else s.source x := by
  rw [source_wakeUpIfPending (registerTask_cases h).2, source_addTask]

theorem source_pauseSecondarySource (h : s.pauseSecondarySource q = some t) :
    t.source x = if x = q then (s.source q).map (·.pauseSecondary) else s.source x := by
  rw [(pauseSecondarySource_cases h).2]
  exact source_modifyEntry_map fun _ => rfl

theorem source_resume :
    (s.resume q).source x = if x = q then (s.source q).map (·.resumeSecondary) else s.source x :=
  source_modifyEntry_map fun _ => rfl

theorem source_resumeSecondarySource (h : s.resumeSecondarySource q = some t) :
    t.source x = if x = q then (s.source q).map (·.resumeSecondary) else s.source x := by
  rw [source_wakeUpIfPending (resumeSecondarySource_cases h).2, source_resume]

theorem source_dispose (h : s.dispose q = some t) :
    t.source x = if x = q ∨ x ∈ s.ownerOf q then none else s.source x := by
  unfold source
  rw [dispose_queueEntries h]
  split_ifs <;> rfl

theorem source_shutDownSource (h : s.shutDownSource q = some t) :
    t.source x = if x = q then (s.source q).map (·.shutDown) else s.source x := by
  simp only [shutDownSource, Option.bind_eq_bind, Option.bind_eq_some_iff] at h
  obtain ⟨e, -, h⟩ := h
  rw [← Option.some.inj h]
  exact source_modifyEntry_map fun _ => rfl

theorem source_foldlM_shutDownSource {xs : List TaskQueueId}
    (h : xs.foldlM shutDownSource s = some t) :
    t.source x = if x ∈ xs then (s.source x).map (·.shutDown) else s.source x := by
  induction xs generalizing s with
  | nil =>
    cases h
    simp
  | cons y ys ih =>
    rw [List.foldlM_cons] at h
    obtain ⟨u, hu, h⟩ := Option.bind_eq_some_iff.mp h
    rw [ih h, source_shutDownSource hu]
    by_cases hxy : x = y
    · subst hxy
      cases s.source x <;> simp [TaskSource.shutDown]
    · simp [hxy]

theorem source_disposeTasks (h : s.disposeTasks q = some t) :
    t.source x = if x = q ∨ x ∈ s.ownerOf q then (s.source x).map (·.shutDown) else s.source x := by
  rw [source_foldlM_shutDownSource (disposeTasks_cases h).2]
  simp only [List.mem_cons]

theorem source_createTaskQueue :
    s.createTaskQueue.2.source x =
      if x = s.taskQueueIdCounter then some (.create x) else s.source x := by
  unfold source
  simp only [createTaskQueue, Function.update_apply]
  split_ifs with hx
  · rw [hx]
    rfl
  · rfl

theorem source_popTask {grade : TaskSourceGrade} {thread : ThreadId} {tls : TaskSourceGrade} :
    ((s.popTask q grade).setTls thread tls).source x =
      if x = q then (s.source q).map (·.popTask grade) else s.source x :=
  source_modifyEntry_map fun _ => rfl

theorem source_getNextTaskToRun {thread : ThreadId} {fromTime : TimePoint} {c : Closure C}
    (h : s.getNextTaskToRun thread q fromTime = some (c, t)) :
    (c = none ∧ (∀ x, t.source x = s.source x) ∧
        (s.hasPendingTasksUnlocked q = some true →
          ∃ top, s.peekNextTaskUnlocked q = some top ∧ fromTime < top.task.targetTime)) ∨
      ∃ top, s.hasPendingTasksUnlocked q = some true ∧ s.peekNextTaskUnlocked q = some top ∧
        top.task.targetTime ≤ fromTime ∧ c = top.task.task ∧
        ∀ x, t.source x = if x = top.taskQueueId then
          (s.source top.taskQueueId).map (·.popTask top.task.taskSourceGrade) else s.source x := by
  rcases getNextTaskToRun_cases h with
    ⟨hp, hc, rfl⟩ | ⟨top, hp, htop, ⟨hlate, hc, rfl⟩ | ⟨hdue, hc, src, -, rfl⟩⟩
  · exact .inl ⟨hc, fun _ => rfl, fun htrue => by rw [hp] at htrue; cases htrue⟩
  · exact .inl ⟨hc, fun _ => source_rearm _, fun _ => ⟨top, htop, hlate⟩⟩
  · refine .inr ⟨top, hp, htop, hdue, hc, fun x => ?_⟩
    rw [source_popTask, source_rearm, source_rearm]

inductive SourceStep (c : QueueCall C) (q : TaskQueueId) (src : TaskSource C) :
    TaskSource C → Prop where
  | stay : SourceStep c q src src
  | register (task : DelayedTask C) : SourceStep c q src (src.registerTask task)
  | pop (grade : TaskSourceGrade) : SourceStep c q src (src.popTask grade)
  | shutDown : SourceStep c q src src.shutDown
  | pause : SourceStep c q src src.pauseSecondary
  | resume : c = .resumeSecondarySource q → SourceStep c q src src.resumeSecondary

theorem source_next {c : QueueCall C} (h : s.next c = some t) {src' : TaskSource C}
    (hq : t.source q = some src') :
    src' = .create q ∨ ∃ src, s.source q = some src ∧ SourceStep c q src src' := by
  have stay : t.source q = s.source q →
      src' = .create q ∨ ∃ src, s.source q = some src ∧ SourceStep c q src src' :=
    fun he => .inr ⟨src', he ▸ hq, .stay⟩
  have mapped : ∀ {p : Prop} [Decidable p] {y : TaskQueueId} {f : TaskSource C → TaskSource C},
      (p → q = y) → (∀ src, p → SourceStep c q src (f src)) →
      t.source q = (if p then (s.source y).map f else s.source q) →
      src' = .create q ∨ ∃ src, s.source q = some src ∧ SourceStep c q src src' := by
    intro p _ y f hy hf he
    by_cases hp : p
    · rw [if_pos hp, hq] at he
      obtain ⟨src, hsrc, rfl⟩ := Option.map_eq_some_iff.mp he.symm
      exact .inr ⟨src, hy hp ▸ hsrc, hf src hp⟩
    · rw [if_neg hp] at he
      exact stay he
  cases c with
  | createTaskQueue =>
    rw [← Option.some.inj h, source_createTaskQueue] at hq
    split_ifs at hq with hc
    · exact .inl (Option.some.inj hq).symm
    · exact .inr ⟨src', hq, .stay⟩
  | dispose q' =>
    rw [source_dispose h] at hq
    split_ifs at hq
    exact .inr ⟨src', hq, .stay⟩
  | disposeTasks q' => exact mapped (fun _ => rfl) (fun _ _ => .shutDown) (source_disposeTasks h)
  | registerTask q' task time grade =>
    exact mapped id (fun _ _ => .register _) (source_registerTask h)
  | getNextTaskToRun thread q' time =>
    obtain ⟨⟨b, u⟩, hg, rfl⟩ := Option.map_eq_some_iff.mp h
    rcases source_getNextTaskToRun hg with ⟨-, hs, -⟩ | ⟨top, -, -, -, -, hs⟩
    · exact stay (hs q)
    · exact mapped id (fun _ _ => .pop _) (hs q)
  | addTaskObserver q' key callback =>
    rw [addTaskObserver_cases h] at stay
    exact stay (source_modifyEntry fun _ => rfl)
  | removeTaskObserver q' key =>
    rw [removeTaskObserver_cases h] at stay
    exact stay (source_modifyEntry fun _ => rfl)
  | setWakeable q' wakeable =>
    rw [setWakeable_cases h] at stay
    exact stay (source_modifyEntry fun _ => rfl)
  | merge o x =>
    obtain ⟨⟨b, u⟩, hm, rfl⟩ := Option.map_eq_some_iff.mp h
    exact stay (source_merge hm)
  | unmerge o x =>
    obtain ⟨⟨b, u⟩, hm, rfl⟩ := Option.map_eq_some_iff.mp h
    exact stay (source_unmerge hm)
  | pauseSecondarySource q' =>
    exact mapped id (fun _ _ => .pause) (source_pauseSecondarySource h)
  | resumeSecondarySource q' =>
    exact mapped id (fun _ hp => .resume (by rw [hp])) (source_resumeSecondarySource h)

end EnvironmentCheck.MessageLoopTaskQueues
