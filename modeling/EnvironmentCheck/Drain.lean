import EnvironmentCheck.Dispatch
import EnvironmentCheck.Library.Tally

namespace EnvironmentCheck

variable {C : Type}

theorem TaskSource.popTask_visible {s : TaskSource C} {top : TopTask C} (h : s.Leads top) :
    s.visible.Perm (top.task :: (s.popTask top.task.taskSourceGrade).visible) := by
  have hfront := PriorityQueue.elems_of_top h.front
  cases hg : top.task.taskSourceGrade.heap with
  | primary =>
    rw [hg] at hfront
    have hp : s.primaryTaskQueue.elems = top.task :: s.primaryTaskQueue.pop.elems := hfront
    have hafter : (s.popTask top.task.taskSourceGrade).visible = s.popPrimary.visible := by
      cases hgrade : top.task.taskSourceGrade with
      | kUserInteraction => rfl
      | kUnspecified => rfl
      | kDartMicroTasks => simp [hgrade, TaskSourceGrade.heap] at hg
    rw [hafter]
    unfold visible
    rw [hp]
    exact List.Perm.refl _
  | secondary =>
    rw [hg] at hfront
    have hs : s.secondaryTaskQueue.elems = top.task :: s.secondaryTaskQueue.pop.elems := hfront
    have hafter : (s.popTask top.task.taskSourceGrade).visible = s.popSecondary.visible := by
      cases hgrade : top.task.taskSourceGrade with
      | kUserInteraction => simp [hgrade, TaskSourceGrade.heap] at hg
      | kUnspecified => simp [hgrade, TaskSourceGrade.heap] at hg
      | kDartMicroTasks => rfl
    have hpause : ¬ 0 < s.secondaryPauseRequests := by
      intro hpause
      have hmem := h.visible
      rw [visible, if_pos hpause, List.append_nil] at hmem
      have hprimary := s.primary_grade _ hmem
      rw [hg] at hprimary
      cases hprimary
    rw [hafter]
    unfold visible
    rw [if_neg hpause, hs]
    have hsame : s.popSecondary.secondaryPauseRequests = s.secondaryPauseRequests := rfl
    rw [hsame, if_neg hpause]
    exact List.perm_middle

namespace MessageLoopTaskQueues

variable {s t : MessageLoopTaskQueues C} {F : OwnerForest TaskQueueId} {q x : TaskQueueId}

def visibleAt (s : MessageLoopTaskQueues C) (x : TaskQueueId) : List (DelayedTask C) :=
  ((s.source x).map TaskSource.visible).getD []

def visibleTasks (s : MessageLoopTaskQueues C) (q : TaskQueueId) : List (DelayedTask C) :=
  (q :: s.ownerOf q).flatMap s.visibleAt

theorem mem_visibleTasks {u : DelayedTask C} :
    u ∈ s.visibleTasks q ↔ ∃ v ∈ s.visible q, v.2 = u := by
  unfold visibleTasks
  rw [List.mem_flatMap]
  constructor
  · rintro ⟨x, hx, hu⟩
    unfold visibleAt at hu
    cases hsrc : s.source x with
    | none => simp [hsrc] at hu
    | some src =>
      rw [hsrc] at hu
      exact ⟨(x, u), ⟨List.mem_cons.mp hx, src, hsrc, hu⟩, rfl⟩
  · rintro ⟨⟨x, u⟩, ⟨hx, src, hsrc, hu⟩, rfl⟩
    refine ⟨x, List.mem_cons.mpr hx, ?_⟩
    have hat : s.visibleAt x = src.visible := by
      rw [visibleAt, show s.source x = some src from hsrc]
      rfl
    rw [hat]
    exact hu

theorem visibleTasks_eq_nil : s.visibleTasks q = [] ↔ ¬ (s.visible q).Nonempty := by
  rw [List.eq_nil_iff_forall_not_mem]
  constructor
  · rintro h ⟨v, hv⟩
    exact h v.2 (mem_visibleTasks.mpr ⟨v, hv, rfl⟩)
  · intro h u hu
    obtain ⟨v, hv, -⟩ := mem_visibleTasks.mp hu
    exact h ⟨v, hv⟩

theorem length_visibleTasks (s : MessageLoopTaskQueues C) (q : TaskQueueId) :
    (s.visibleTasks q).length = ((s.group q).map fun src => src.visible.length).sum := by
  unfold visibleTasks group
  induction q :: s.ownerOf q with
  | nil => rfl
  | cons x xs ih =>
    rw [List.flatMap_cons, List.length_append, ih, List.filterMap_cons]
    unfold visibleAt
    cases s.source x with
    | none => simp
    | some src => simp

theorem getNumPendingTasks_eq (hl : s.Linked) (hs : s.SoundSources) (hq : s.Registered q)
    (hsub : s.subsumedBy q = none) :
    s.getNumPendingTasks q = some (s.visibleTasks q).length := by
  obtain ⟨e, he⟩ := registered_iff.mp hq
  rw [length_visibleTasks]
  have hcount : (s.group q).map (fun src => src.visible.length) =
      (s.group q).map TaskSource.getNumPendingTasks := by
    apply List.map_congr_left
    intro src hsrc
    obtain ⟨x, -, hx⟩ := mem_group.mp hsrc
    exact (TaskSource.getNumPendingTasks_eq (hs.pauses x src hx)).symm
  rw [subsumedBy_eq he] at hsub
  rw [hcount]
  simp only [getNumPendingTasks, he, hsub, Option.bind_eq_bind, Option.bind_some, ne_eq,
    not_true_eq_false, ↓reduceIte]
  rw [← ownerOf_eq he, sources_eq (hl q)]
  simp [group, source_eq he]

theorem visibleTasks_popTask {top : TopTask C} {src : TaskSource C} (hn : (q :: s.ownerOf q).Nodup)
    (hmem : top.taskQueueId = q ∨ top.taskQueueId ∈ s.ownerOf q) (hlead : src.Leads top)
    (hsrc : s.source top.taskQueueId = some src) (hown : t.ownerOf q = s.ownerOf q)
    (ht : ∀ x, t.source x = if x = top.taskQueueId then
      (s.source top.taskQueueId).map (·.popTask top.task.taskSourceGrade) else s.source x) :
    (s.visibleTasks q).Perm (top.task :: t.visibleTasks q) := by
  unfold visibleTasks
  rw [hown]
  apply flatMap_perm_cons hn (List.mem_cons.mpr hmem)
  · unfold visibleAt
    rw [ht, if_pos rfl, hsrc]
    exact TaskSource.popTask_visible hlead
  · intro x hx
    unfold visibleAt
    rw [ht, if_neg hx]

/-- `GetNextTaskToRun` until it returns null; `none` also where `fuel` calls do not get there. -/
def drain (s : MessageLoopTaskQueues C) (thread : ThreadId) (q : TaskQueueId)
    (fromTime : TimePoint) : ℕ → Option (List C × MessageLoopTaskQueues C)
  | 0 => none
  | fuel + 1 =>
    match s.getNextTaskToRun thread q fromTime with
    | none => none
    | some (none, t) => some ([], t)
    | some (some task, t) => (t.drain thread q fromTime fuel).map fun r => (task :: r.1, r.2)

theorem drain_max (hr : Represents s F) (hs : s.SoundSources) (hq : s.Registered q)
    (hsub : s.subsumedBy q = none) (hnull : ∀ u ∈ s.visibleTasks q, u.task ≠ none)
    (thread : ThreadId) (fuel : ℕ) (hfuel : (s.visibleTasks q).length < fuel) :
    ∃ tasks t, s.drain thread q .max fuel = some (tasks, t) ∧
      tasks.length = (s.visibleTasks q).length := by
  induction fuel generalizing s with
  | zero => simp at hfuel
  | succ fuel ih =>
    have hl := hr.linked
    obtain ⟨⟨c, t⟩, hg⟩ := Option.isSome_iff_exists.mp
      (getNextTaskToRun_isSome hl hs.taskQueueId hq thread TimePoint.max)
    have hpending := hasPendingTasksUnlocked_iff hl hs hq
    have hlinks := sameLinks_getNextTaskToRun hg
    rcases source_getNextTaskToRun hg with ⟨rfl, hsame, hlate⟩ | ⟨top, hp, htop, -, rfl, hsource⟩
    · have hnil : s.visibleTasks q = [] := by
        rw [visibleTasks_eq_nil]
        intro hne
        obtain ⟨top, -, hlt⟩ := hlate (hpending.mpr ⟨hsub, hne⟩)
        exact absurd (TimePoint.le_max _) (not_le.mpr hlt)
      exact ⟨[], t, by simp [drain, hg], by simp [hnil]⟩
    · obtain ⟨top', src, htop', hsrc, hlead, hmem⟩ :=
        peekNextTaskUnlocked_some hl hs.taskQueueId hq hp
      obtain rfl : top = top' := Option.some.inj (htop.symm.trans htop')
      have hperm := visibleTasks_popTask (hr.nodup_group q) hmem hlead hsrc (hlinks.ownerOf q) hsource
      have hne : top.task.task ≠ none := hnull _ (hperm.mem_iff.mpr List.mem_cons_self)
      obtain ⟨task, htask⟩ := Option.ne_none_iff_exists'.mp hne
      have hst : t.SoundSources := by
        apply soundSources_next hs (c := .getNextTaskToRun thread q .max) trivial
        simp [next, hg]
      have hlen := hperm.length_eq
      rw [List.length_cons] at hlen
      obtain ⟨tasks, u, hdrain, hcount⟩ := ih (hr.sameLinks hlinks) hst
        ((hlinks.registered q).mpr hq) ((hlinks.subsumedBy q).trans hsub)
        (fun v hv => hnull v (hperm.mem_iff.mpr (List.mem_cons_of_mem _ hv))) (by omega)
      rw [htask] at hg
      refine ⟨task :: tasks, u, by simp [drain, hg, hdrain], ?_⟩
      rw [List.length_cons, hcount, hlen]

end MessageLoopTaskQueues

end EnvironmentCheck
