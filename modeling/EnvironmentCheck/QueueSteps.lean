import EnvironmentCheck.QueueCalls

namespace EnvironmentCheck.MessageLoopTaskQueues

variable {C : Type} {s t : MessageLoopTaskQueues C} {q x o : TaskQueueId}

theorem registerTask_cases {task : Closure C} {targetTime : TimePoint} {grade : TaskSourceGrade}
    (h : s.registerTask q task targetTime grade = some t) :
    s.Registered q ∧
      (s.addTask q ⟨orderStamp s.order, task, targetTime, grade⟩).wakeUpIfPending
        ((s.subsumedBy q).getD q) = some t := by
  simp only [registerTask, Option.bind_eq_bind, Option.bind_eq_some_iff] at h
  obtain ⟨e, he, h⟩ := h
  refine ⟨registered_iff.mpr ⟨e, he⟩, ?_⟩
  rwa [subsumedBy_eq he]

theorem resumeSecondarySource_cases (h : s.resumeSecondarySource q = some t) :
    s.Registered q ∧ (s.resume q).wakeUpIfPending q = some t := by
  simp only [resumeSecondarySource, Option.bind_eq_bind, Option.bind_eq_some_iff] at h
  obtain ⟨e, he, h⟩ := h
  exact ⟨registered_iff.mpr ⟨e, he⟩, h⟩

theorem pauseSecondarySource_cases (h : s.pauseSecondarySource q = some t) :
    s.Registered q ∧
      t = s.modifyEntry q fun e => { e with taskSource := e.taskSource.pauseSecondary } := by
  simp only [pauseSecondarySource, Option.bind_eq_bind, Option.bind_eq_some_iff] at h
  obtain ⟨e, he, h⟩ := h
  exact ⟨registered_iff.mpr ⟨e, he⟩, (Option.some.inj h).symm⟩

theorem addTaskObserver_cases {key : ℤ} {callback : Closure C}
    (h : s.addTaskObserver q key callback = some t) :
    t = s.modifyEntry q fun e =>
      { e with taskObservers := e.taskObservers.insert (key, callback) } := by
  simp only [addTaskObserver, Option.bind_eq_bind, Option.bind_eq_some_iff] at h
  obtain ⟨e, -, h⟩ := h
  exact (Option.some.inj h).symm

theorem removeTaskObserver_cases {key : ℤ} (h : s.removeTaskObserver q key = some t) :
    t = s.modifyEntry q fun e => { e with taskObservers := e.taskObservers.erase key } := by
  simp only [removeTaskObserver, Option.bind_eq_bind, Option.bind_eq_some_iff] at h
  obtain ⟨e, -, h⟩ := h
  exact (Option.some.inj h).symm

theorem setWakeable_cases {wakeable : Option Wakeable} (h : s.setWakeable q wakeable = some t) :
    t = s.modifyEntry q fun e => { e with wakeable := wakeable } := by
  simp only [setWakeable, Option.bind_eq_bind, Option.bind_eq_some_iff] at h
  obtain ⟨e, -, h⟩ := h
  split_ifs at h
  exact (Option.some.inj h).symm

theorem dispose_cases (h : s.dispose q = some t) :
    s.Registered q ∧ t = ((s.ownerOf q).foldl eraseEntry s).eraseEntry q := by
  simp only [dispose, Option.bind_eq_bind, Option.bind_eq_some_iff] at h
  obtain ⟨e, he, h⟩ := h
  rw [ownerOf_eq he]
  exact ⟨registered_iff.mpr ⟨e, he⟩, (Option.some.inj h).symm⟩

theorem disposeTasks_cases (h : s.disposeTasks q = some t) :
    s.Registered q ∧ (q :: s.ownerOf q).foldlM shutDownSource s = some t := by
  simp only [disposeTasks, Option.bind_eq_bind, Option.bind_eq_some_iff] at h
  obtain ⟨e, he, h⟩ := h
  rw [ownerOf_eq he]
  exact ⟨registered_iff.mpr ⟨e, he⟩, h⟩

theorem registered_of_hasPendingTasksUnlocked {b : Bool} (h : s.hasPendingTasksUnlocked q = some b) :
    s.Registered q := by
  obtain ⟨e, he, -⟩ := Option.bind_eq_some_iff.mp h
  exact registered_iff.mpr ⟨e, he⟩

theorem getNextTaskToRun_cases {thread : ThreadId} {fromTime : TimePoint} {c : Closure C}
    (h : s.getNextTaskToRun thread q fromTime = some (c, t)) :
    (s.hasPendingTasksUnlocked q = some false ∧ c = none ∧ t = s) ∨
      ∃ top, s.hasPendingTasksUnlocked q = some true ∧ s.peekNextTaskUnlocked q = some top ∧
        ((fromTime < top.task.targetTime ∧ c = none ∧ t = s.rearm q top.task.targetTime) ∨
          (top.task.targetTime ≤ fromTime ∧ c = top.task.task ∧
            ∃ src, s.source top.taskQueueId = some src ∧
              t = ((s.rearm q top.task.targetTime).popTask top.taskQueueId
                top.task.taskSourceGrade).setTls thread
                  (((src.popTask top.task.taskSourceGrade).heap
                    top.task.taskSourceGrade.heap).top.getD top.task).taskSourceGrade)) := by
  simp only [getNextTaskToRun, Option.bind_eq_bind, Option.bind_eq_some_iff] at h
  obtain ⟨pending, hp, h⟩ := h
  cases pending with
  | false =>
    obtain ⟨rfl, rfl⟩ := Prod.mk.inj (Option.some.inj h)
    exact .inl ⟨hp, rfl, rfl⟩
  | true =>
    simp only [Bool.not_true, Bool.false_eq_true, ↓reduceIte, Option.bind_eq_some_iff, hp,
      Option.some.injEq, exists_eq_left'] at h
    obtain ⟨top, htop, wakeTime, hw, woken, hwoken, h⟩ := h
    have htime : wakeTime = top.task.targetTime := by
      simpa [getNextWakeTimeUnlocked, htop] using hw.symm
    have hrearm : woken = s.rearm q top.task.targetTime := by
      simp only [wakeUpUnlocked, Option.bind_eq_bind, Option.bind_eq_some_iff] at hwoken
      obtain ⟨e, -, hwoken⟩ := hwoken
      rw [← Option.some.inj hwoken, htime]
    subst hrearm
    refine .inr ⟨top, hp, htop, ?_⟩
    split_ifs at h with hlt
    · obtain ⟨rfl, rfl⟩ := Prod.mk.inj (Option.some.inj h)
      exact .inl ⟨hlt, rfl, rfl⟩
    · obtain ⟨e, he, h⟩ := Option.bind_eq_some_iff.mp h
      obtain ⟨rfl, rfl⟩ := Prod.mk.inj (Option.some.inj h)
      have hsource := source_eq he
      rw [source_rearm] at hsource
      exact .inr ⟨not_lt.mp hlt, rfl, e.taskSource, hsource, rfl⟩

theorem merge_cases {b : Bool} (h : s.merge o x = some (b, t)) :
    (t = s ∧ (b = true → o = x ∨ x ∈ s.ownerOf o)) ∨
      (b = true ∧ o ≠ x ∧ s.Registered o ∧ s.Registered x ∧ s.subsumedBy o = none ∧
        s.subsumedBy x = none ∧ s.ownerOf x = [] ∧ (s.setMerged o x).wakeUpIfPending o = some t) := by
  unfold merge at h
  split_ifs at h with hox
  · obtain ⟨rfl, rfl⟩ := Prod.mk.inj (Option.some.inj h)
    exact .inl ⟨rfl, fun _ => .inl hox⟩
  simp only [Option.bind_eq_bind, Option.bind_eq_some_iff] at h
  obtain ⟨eo, ho, ex, hx, h⟩ := h
  split_ifs at h with hmem howner hleaf hsub
  · obtain ⟨rfl, rfl⟩ := Prod.mk.inj (Option.some.inj h)
    exact .inl ⟨rfl, fun _ => .inr ((mem_ownerOf ho).mpr hmem)⟩
  · obtain ⟨rfl, rfl⟩ := Prod.mk.inj (Option.some.inj h)
    exact .inl ⟨rfl, by simp⟩
  · obtain ⟨rfl, rfl⟩ := Prod.mk.inj (Option.some.inj h)
    exact .inl ⟨rfl, by simp⟩
  · obtain ⟨rfl, rfl⟩ := Prod.mk.inj (Option.some.inj h)
    exact .inl ⟨rfl, by simp⟩
  · obtain ⟨woken, hw, h⟩ := Option.bind_eq_some_iff.mp h
    obtain ⟨rfl, rfl⟩ := Prod.mk.inj (Option.some.inj h)
    refine .inr ⟨rfl, hox, registered_iff.mpr ⟨eo, ho⟩, registered_iff.mpr ⟨ex, hx⟩,
      (subsumedBy_eq ho).trans (not_not.mp howner), (subsumedBy_eq hx).trans (not_not.mp hsub),
      ?_, hw⟩
    simpa [ownerOf_eq hx, Ordered.isEmpty] using hleaf

theorem unmerge_cases {b : Bool} (h : s.unmerge o x = some (b, t)) :
    (b = false ∧ t = s) ∨
      (b = true ∧ s.subsumedBy o = none ∧ x ∈ s.ownerOf o ∧
        ∃ u, (s.setUnmerged o x).wakeUpIfPending o = some u ∧ u.wakeUpIfPending x = some t) := by
  simp only [unmerge, Option.bind_eq_bind, Option.bind_eq_some_iff] at h
  obtain ⟨eo, ho, h⟩ := h
  split_ifs at h with hempty howner hmem
  · obtain ⟨rfl, rfl⟩ := Prod.mk.inj (Option.some.inj h)
    exact .inl ⟨rfl, rfl⟩
  · obtain ⟨rfl, rfl⟩ := Prod.mk.inj (Option.some.inj h)
    exact .inl ⟨rfl, rfl⟩
  · obtain ⟨ex, hx, h⟩ := Option.bind_eq_some_iff.mp h
    split_ifs at h with hsub
    · obtain ⟨rfl, rfl⟩ := Prod.mk.inj (Option.some.inj h)
      exact .inl ⟨rfl, rfl⟩
    · obtain ⟨u, hu, h⟩ := Option.bind_eq_some_iff.mp h
      obtain ⟨woken, hw, h⟩ := Option.bind_eq_some_iff.mp h
      obtain ⟨rfl, rfl⟩ := Prod.mk.inj (Option.some.inj h)
      exact .inr ⟨rfl, (subsumedBy_eq ho).trans (not_not.mp howner), (mem_ownerOf ho).mpr hmem,
        u, hu, hw⟩
  · obtain ⟨ex, -, h⟩ := Option.bind_eq_some_iff.mp h
    rw [ite_self] at h
    obtain ⟨rfl, rfl⟩ := Prod.mk.inj (Option.some.inj h)
    exact .inl ⟨rfl, rfl⟩

/-- `CreateTaskQueue` and `SetWakeable`, as the constructor of a loop calls them. -/
def createLoop (s : MessageLoopTaskQueues C) : Option (MessageLoopTaskQueues C) :=
  s.createTaskQueue.2.setWakeable s.createTaskQueue.1 (some ⟨none⟩)

theorem createLoop_steps (h : s.createLoop = some t) :
    s.next .createTaskQueue = some s.createTaskQueue.2 ∧
      s.createTaskQueue.2.next (.setWakeable s.taskQueueIdCounter (some ⟨none⟩)) = some t :=
  ⟨rfl, h⟩

theorem createLoop_queueEntries (h : s.createLoop = some t) :
    t.queueEntries x = if x = s.taskQueueIdCounter then
      some { TaskQueueEntry.create x with wakeable := some ⟨none⟩ } else s.queueEntries x := by
  rw [setWakeable_cases h, modifyEntry_queueEntries]
  simp only [createTaskQueue, Function.update_apply]
  split_ifs with hx
  · rw [hx]
    rfl
  · rfl

end EnvironmentCheck.MessageLoopTaskQueues
