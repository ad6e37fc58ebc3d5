import EnvironmentCheck.Dispatch

namespace EnvironmentCheck

variable {C : Type}

namespace TaskSource

variable {s : TaskSource C} {t : DelayedTask C} {top : TopTask C}

def tasks (s : TaskSource C) : List (DelayedTask C) :=
  s.primaryTaskQueue.elems ++ s.secondaryTaskQueue.elems

theorem tasks_registerTask (s : TaskSource C) (t : DelayedTask C) :
    (s.registerTask t).tasks.Perm (t :: s.tasks) := by
  obtain ⟨ht, he⟩ | ⟨ht, he⟩ := registerTask_eq (s := s) t
  · rw [he]
    exact (PriorityQueue.push_perm _ _).append_right _
  · rw [he]
    exact ((PriorityQueue.push_perm _ _).append_left _).trans List.perm_middle

@[simp] theorem tasks_shutDown : s.shutDown.tasks = [] := rfl

@[simp] theorem tasks_create (q : TaskQueueId) : (create (C := C) q).tasks = [] := rfl

end TaskSource

namespace MessageLoopTaskQueues

variable {s t : MessageLoopTaskQueues C} {F : OwnerForest TaskQueueId} {q x : TaskQueueId}

def pendingTasks (s : MessageLoopTaskQueues C) (q : TaskQueueId) : List (DelayedTask C) :=
  s.heap q .primary ++ s.heap q .secondary

theorem pendingTasks_congr (h : t.source q = s.source q) : t.pendingTasks q = s.pendingTasks q := by
  simp only [pendingTasks, heap, h]

theorem pendingTasks_eq {src : TaskSource C} (h : s.source q = some src) :
    s.pendingTasks q = src.tasks := by
  rw [pendingTasks, heap_eq h, heap_eq h]
  rfl

theorem pendingTasks_none (h : s.source q = none) : s.pendingTasks q = [] := by
  simp [pendingTasks, heap, h]

theorem pendingTasks_mapped {f : TaskSource C → TaskSource C} (hf : ∀ src, (f src).tasks = src.tasks)
    (hs : t.source x = if x = q then (s.source q).map f else s.source x) :
    t.pendingTasks x = s.pendingTasks x := by
  by_cases hx : x = q
  · subst hx
    rw [if_pos rfl] at hs
    cases hsrc : s.source x with
    | none => rw [pendingTasks_none hsrc, pendingTasks_none (by rw [hs, hsrc, Option.map_none])]
    | some src =>
      rw [hsrc, Option.map_some] at hs
      rw [pendingTasks_eq hsrc, pendingTasks_eq hs, hf]
  · rw [if_neg hx] at hs
    exact pendingTasks_congr hs

/-- `t` is `s` without the task at the front of one of the heaps. -/
structure Pops (s t : MessageLoopTaskQueues C) (v : TaskQueueId × DelayedTask C) : Prop where
  front : s.heap v.1 v.2.taskSourceGrade.heap = v.2 :: t.heap v.1 v.2.taskSourceGrade.heap
  others : ∀ x h, (x, h) ≠ (v.1, v.2.taskSourceGrade.heap) → t.heap x h = s.heap x h

theorem Pops.perm {v : TaskQueueId × DelayedTask C} (h : Pops s t v) :
    (s.pendingTasks v.1).Perm (v.2 :: t.pendingTasks v.1) := by
  have hfront := h.front
  unfold pendingTasks
  cases hh : v.2.taskSourceGrade.heap with
  | primary =>
    rw [hh] at hfront
    rw [hfront, h.others v.1 .secondary (by simp [hh])]
    rfl
  | secondary =>
    rw [hh] at hfront
    rw [hfront, h.others v.1 .primary (by simp [hh])]
    exact List.perm_middle

theorem Pops.same {v : TaskQueueId × DelayedTask C} (h : Pops s t v) (hx : x ≠ v.1) :
    t.pendingTasks x = s.pendingTasks x := by
  have hne : ∀ h', (x, h') ≠ (v.1, v.2.taskSourceGrade.heap) := by
    intro h' he
    exact hx (congrArg Prod.fst he)
  rw [pendingTasks, h.others x _ (hne _), h.others x _ (hne _)]
  rfl

theorem getNextTaskToRun_pops (hF : Represents s F) (hid : s.SourcesNamed) {thread : ThreadId}
    {time : TimePoint} {c : Closure C} (h : s.getNextTaskToRun thread q time = some (c, t)) :
    (c = none ∧ (∀ x, t.source x = s.source x) ∧
        (s.hasPendingTasksUnlocked q = some true →
          ∃ top, s.peekNextTaskUnlocked q = some top ∧ time < top.task.targetTime)) ∨
      ∃ top, s.hasPendingTasksUnlocked q = some true ∧ s.peekNextTaskUnlocked q = some top ∧
        top.task.targetTime ≤ time ∧ c = top.task.task ∧
        (top.taskQueueId = q ∨ top.taskQueueId ∈ s.ownerOf q) ∧
        Pops s t (top.taskQueueId, top.task) := by
  obtain hnone | ⟨top, hp, htop, hdue, hc, hs⟩ := source_getNextTaskToRun h
  · exact .inl hnone
  · have hq : s.Registered q := registered_of_hasPendingTasksUnlocked hp
    obtain ⟨top', src, htop', hsrc, hlead, hmem⟩ := peekNextTaskUnlocked_some hF.linked hid hq hp
    obtain rfl : top = top' := Option.some.inj (htop.symm.trans htop')
    obtain ⟨hfront, hothers⟩ := popTask_heaps hsrc hlead hs
    exact .inr ⟨top, hp, htop, hdue, hc, hmem, hfront, hothers⟩

structure Gains (s t : MessageLoopTaskQueues C) (q : TaskQueueId) (task : DelayedTask C) : Prop where
  perm : (t.pendingTasks q).Perm (task :: s.pendingTasks q)
  others : ∀ x, x ≠ q → t.pendingTasks x = s.pendingTasks x

structure Drops (s t : MessageLoopTaskQueues C) (q : TaskQueueId) : Prop where
  gone : ∀ x, x = q ∨ x ∈ s.ownerOf q → t.pendingTasks x = []
  others : ∀ x, ¬ (x = q ∨ x ∈ s.ownerOf q) → t.pendingTasks x = s.pendingTasks x

theorem drops_disposeTasks (h : s.disposeTasks q = some t) : Drops s t q where
  gone x hx := by
    have hs := source_disposeTasks h (x := x)
    rw [if_pos hx] at hs
    cases hsrc : s.source x with
    | none => exact pendingTasks_none (by rw [hs, hsrc, Option.map_none])
    | some src => exact pendingTasks_eq (by rw [hs, hsrc, Option.map_some])
  others x hx := by
    apply pendingTasks_congr
    rw [source_disposeTasks h, if_neg hx]

theorem drops_dispose (h : s.dispose q = some t) : Drops s t q where
  gone x hx := by
    apply pendingTasks_none
    rw [source_dispose h, if_pos hx]
  others x hx := by
    apply pendingTasks_congr
    rw [source_dispose h, if_neg hx]

theorem gains_registerTask {task : Closure C} {time : TimePoint} {grade : TaskSourceGrade}
    (h : s.registerTask q task time grade = some t) :
    Gains s t q ⟨orderStamp s.order, task, time, grade⟩ where
  perm := by
    obtain ⟨e, he⟩ := registered_iff.mp (registerTask_cases h).1
    have ht : t.source q = some (e.taskSource.registerTask ⟨orderStamp s.order, task, time, grade⟩) := by
      rw [source_registerTask h, if_pos rfl, source_eq he, Option.map_some]
    rw [pendingTasks_eq ht, pendingTasks_eq (source_eq he)]
    exact TaskSource.tasks_registerTask _ _
  others x hx := by
    apply pendingTasks_congr
    rw [source_registerTask h, if_neg hx]

def TasksStep (s t : MessageLoopTaskQueues C) : QueueCall C → Prop
  | .registerTask q task time grade => Gains s t q ⟨orderStamp s.order, task, time, grade⟩
  | .getNextTaskToRun _ _ _ => (∀ x, t.pendingTasks x = s.pendingTasks x) ∨ ∃ v, Pops s t v
  | .dispose q => Drops s t q
  | .disposeTasks q => Drops s t q
  | _ => ∀ x, t.pendingTasks x = s.pendingTasks x

theorem tasksStep_next (hF : Represents s F) (hid : s.SourcesNamed) {c : QueueCall C}
    (hn : s.next c = some t) : TasksStep s t c := by
  cases c with
  | createTaskQueue =>
    intro x
    have hs := source_createTaskQueue (s := s) (x := x)
    rw [Option.some.inj hn] at hs
    split_ifs at hs with hx
    · have hnone : s.source x = none := by
        rw [source, Option.map_eq_none_iff, ← Option.not_isSome_iff_eq_none]
        intro hr
        exact absurd (hF.fresh x hr) (hx ▸ lt_irrefl _)
      rw [pendingTasks_none hnone, pendingTasks_eq hs, TaskSource.tasks_create]
    · exact pendingTasks_congr hs
  | dispose q => exact drops_dispose hn
  | disposeTasks q => exact drops_disposeTasks hn
  | registerTask q task time grade => exact gains_registerTask hn
  | getNextTaskToRun thread q time =>
    obtain ⟨⟨b, u⟩, hg, rfl⟩ := Option.map_eq_some_iff.mp hn
    obtain ⟨-, hs, -⟩ | ⟨top, -, -, -, -, -, hpop⟩ := getNextTaskToRun_pops hF hid hg
    · exact .inl fun x => pendingTasks_congr (hs x)
    · exact .inr ⟨_, hpop⟩
  | addTaskObserver q key callback =>
    rw [addTaskObserver_cases hn]
    exact fun x => pendingTasks_congr (source_modifyEntry fun _ => rfl)
  | removeTaskObserver q key =>
    rw [removeTaskObserver_cases hn]
    exact fun x => pendingTasks_congr (source_modifyEntry fun _ => rfl)
  | setWakeable q wakeable =>
    rw [setWakeable_cases hn]
    exact fun x => pendingTasks_congr (source_modifyEntry fun _ => rfl)
  | merge o x =>
    obtain ⟨⟨b, u⟩, hm, rfl⟩ := Option.map_eq_some_iff.mp hn
    exact fun y => pendingTasks_congr (source_merge hm)
  | unmerge o x =>
    obtain ⟨⟨b, u⟩, hm, rfl⟩ := Option.map_eq_some_iff.mp hn
    exact fun y => pendingTasks_congr (source_unmerge hm)
  | pauseSecondarySource q =>
    intro x
    exact pendingTasks_mapped (f := (·.pauseSecondary)) (fun _ => rfl) (source_pauseSecondarySource hn)
  | resumeSecondarySource q =>
    intro x
    exact pendingTasks_mapped (f := (·.resumeSecondary)) (fun _ => rfl)
      (source_resumeSecondarySource hn)

theorem Drops.mem {task : DelayedTask C} (h : Drops s t q) (ht : task ∈ t.pendingTasks x) :
    task ∈ s.pendingTasks x := by
  by_cases hx : x = q ∨ x ∈ s.ownerOf q
  · rw [h.gone x hx] at ht
    cases ht
  · exact h.others x hx ▸ ht

theorem Pops.mem {v : TaskQueueId × DelayedTask C} {task : DelayedTask C} (h : Pops s t v)
    (ht : task ∈ t.pendingTasks x) : task ∈ s.pendingTasks x := by
  by_cases hx : x = v.1
  · subst hx
    exact h.perm.mem_iff.mpr (List.mem_cons_of_mem _ ht)
  · exact h.same hx ▸ ht

theorem mem_pendingTasks_next (hF : Represents s F) (hid : s.SourcesNamed) {c : QueueCall C}
    (hn : s.next c = some t) {task : DelayedTask C} (ht : task ∈ t.pendingTasks x) :
    task ∈ s.pendingTasks x ∨
      c = .registerTask x task.task task.targetTime task.taskSourceGrade := by
  have hstep := tasksStep_next hF hid hn
  cases c with
  | registerTask q closure time grade =>
    by_cases hx : x = q
    · subst hx
      cases List.mem_cons.mp (hstep.perm.mem_iff.mp ht) with
      | inl he =>
        subst he
        exact .inr rfl
      | inr hold => exact .inl hold
    · exact .inl (hstep.others x hx ▸ ht)
  | getNextTaskToRun thread q time =>
    cases hstep with
    | inl hs => exact .inl (hs x ▸ ht)
    | inr hpop =>
      obtain ⟨v, hpop⟩ := hpop
      exact .inl (hpop.mem ht)
  | dispose q => exact .inl (Drops.mem hstep ht)
  | disposeTasks q => exact .inl (Drops.mem hstep ht)
  | _ => exact .inl (hstep x ▸ ht)

end MessageLoopTaskQueues

end EnvironmentCheck
