import EnvironmentCheck.QueueSteps
import Mathlib.Order.Bounds.Basic

namespace EnvironmentCheck

variable {C : Type}

namespace TaskSource

variable {s : TaskSource C} {t : DelayedTask C} {top : TopTask C}

def visible (s : TaskSource C) : List (DelayedTask C) :=
  s.primaryTaskQueue.elems ++ if 0 < s.secondaryPauseRequests then [] else s.secondaryTaskQueue.elems

theorem getNumPendingTasks_eq (h : 0 ≤ s.secondaryPauseRequests) :
    s.getNumPendingTasks = s.visible.length := by
  unfold getNumPendingTasks visible PriorityQueue.size
  have hp : s.secondaryPauseRequests = 0 ↔ ¬ 0 < s.secondaryPauseRequests := by omega
  by_cases hpause : 0 < s.secondaryPauseRequests
  · simp [hpause, hpause.ne']
  · simp [hp.mpr hpause]

theorem isEmpty_iff (h : 0 ≤ s.secondaryPauseRequests) : s.isEmpty = true ↔ s.visible = [] := by
  rw [isEmpty, decide_eq_true_eq, getNumPendingTasks_eq h]
  exact List.length_eq_zero_iff

theorem mem_visible_iff (h : t ∈ s.visible) : t ∈ (s.heap t.taskSourceGrade.heap).elems := by
  rcases List.mem_append.mp h with hp | hs
  · rw [s.primary_grade t hp]
    exact hp
  · split_ifs at hs
    · simp at hs
    · rw [s.secondary_grade t hs]
      exact hs

theorem key_le_of_heap_top {h : TaskHeap} {u : DelayedTask C} (ht : (s.heap h).top = some t)
    (hu : u ∈ (s.heap h).elems) : t.key ≤ u.key := by
  rcases PriorityQueue.top_le ht hu with rfl | hle
  · exact le_rfl
  · exact (DelayedTask.notGt_iff_key_le t u).mp hle

structure Leads (s : TaskSource C) (top : TopTask C) : Prop where
  taskQueueId : top.taskQueueId = s.taskQueueId
  front : (s.heap top.task.taskSourceGrade.heap).top = some top.task
  visible : top.task ∈ s.visible
  least : ∀ u ∈ s.visible, top.task.key ≤ u.key

theorem leads_primary (ht : s.primaryTaskQueue.top = some t)
    (hs : ∀ u ∈ s.secondaryTaskQueue.elems, 0 < s.secondaryPauseRequests ∨ t.key ≤ u.key) :
    s.Leads ⟨s.taskQueueId, t⟩ := by
  have hmem := PriorityQueue.top_mem ht
  refine ⟨rfl, ?_, List.mem_append_left _ hmem, ?_⟩
  · change (s.heap t.taskSourceGrade.heap).top = some t
    rw [s.primary_grade t hmem]
    exact ht
  · intro u hu
    rcases List.mem_append.mp hu with hp | hsec
    · exact key_le_of_heap_top (h := .primary) ht hp
    · split_ifs at hsec with hpause
      · simp at hsec
      · exact (hs u hsec).resolve_left hpause

theorem leads_secondary (ht : s.secondaryTaskQueue.top = some t)
    (hpause : ¬ 0 < s.secondaryPauseRequests)
    (hp : ∀ u ∈ s.primaryTaskQueue.elems, t.key ≤ u.key) : s.Leads ⟨s.taskQueueId, t⟩ := by
  have hmem := PriorityQueue.top_mem ht
  refine ⟨rfl, ?_, List.mem_append_right _ (by rwa [if_neg hpause]), ?_⟩
  · change (s.heap t.taskSourceGrade.heap).top = some t
    rw [s.secondary_grade t hmem]
    exact ht
  · intro u hu
    rcases List.mem_append.mp hu with hpri | hsec
    · exact hp u hpri
    · rw [if_neg hpause] at hsec
      exact key_le_of_heap_top (h := .secondary) ht hsec

theorem top_leads (h : s.isEmpty = false) : ∃ top, s.top = some top ∧ s.Leads top := by
  unfold top
  rw [if_neg (by simp [h])]
  split_ifs with hfirst hprimary
  · have hp : s.primaryTaskQueue.elems ≠ [] := by
      intro hnil
      simp only [isEmpty, getNumPendingTasks, PriorityQueue.size, hnil] at h
      rcases hfirst with hpause | hsec
      · simp [hpause.ne'] at h
      · rw [PriorityQueue.isEmpty_iff] at hsec
        simp [hsec] at h
    obtain ⟨t, ht⟩ := PriorityQueue.top_isSome hp
    refine ⟨_, by rw [ht]; rfl, leads_primary ht fun u hu => ?_⟩
    rcases hfirst with hpause | hsec
    · exact .inl hpause
    · rw [PriorityQueue.isEmpty_iff] at hsec
      simp [hsec] at hu
  · rw [not_or, PriorityQueue.isEmpty_iff] at hfirst
    rw [PriorityQueue.isEmpty_iff] at hprimary
    obtain ⟨t, ht⟩ := PriorityQueue.top_isSome hfirst.2
    refine ⟨_, by rw [ht]; rfl, leads_secondary ht hfirst.1 ?_⟩
    simp [hprimary]
  · rw [not_or, PriorityQueue.isEmpty_iff] at hfirst
    rw [PriorityQueue.isEmpty_iff] at hprimary
    obtain ⟨p, hp⟩ := PriorityQueue.top_isSome hprimary
    obtain ⟨u, hu⟩ := PriorityQueue.top_isSome hfirst.2
    simp only [hp, hu, Option.bind_some, Option.map_some]
    split_ifs with hgt
    · refine ⟨_, rfl, leads_secondary hu hfirst.1 fun v hv => ?_⟩
      rw [DelayedTask.gt_iff_key_lt] at hgt
      exact hgt.le.trans (key_le_of_heap_top (h := .primary) hp hv)
    · refine ⟨_, rfl, leads_primary hp fun v hv => .inr ?_⟩
      rw [DelayedTask.gt_iff_key_lt, not_lt] at hgt
      exact hgt.trans (key_le_of_heap_top (h := .secondary) hu hv)

end TaskSource

namespace MessageLoopTaskQueues

variable {s : MessageLoopTaskQueues C} {q : TaskQueueId}

def Linked (s : MessageLoopTaskQueues C) : Prop := ∀ q, ∀ x ∈ s.ownerOf q, s.Registered x

def visible (s : MessageLoopTaskQueues C) (q : TaskQueueId) : Set (TaskQueueId × DelayedTask C) :=
  {v | (v.1 = q ∨ v.1 ∈ s.ownerOf q) ∧ ∃ src, s.source v.1 = some src ∧ v.2 ∈ src.visible}

def group (s : MessageLoopTaskQueues C) (q : TaskQueueId) : List (TaskSource C) :=
  (q :: s.ownerOf q).filterMap s.source

theorem mem_group {src : TaskSource C} :
    src ∈ s.group q ↔ ∃ x, (x = q ∨ x ∈ s.ownerOf q) ∧ s.source x = some src := by
  simp only [group, List.mem_filterMap, List.mem_cons]

theorem sources_eq {ids : List TaskQueueId} (h : ∀ x ∈ ids, s.Registered x) :
    s.sources ids = some (ids.filterMap s.source) := by
  unfold sources
  induction ids with
  | nil => rfl
  | cons x ids ih =>
    obtain ⟨e, he⟩ := registered_iff.mp (h x List.mem_cons_self)
    have ih := ih fun y hy => h y (List.mem_cons_of_mem _ hy)
    rw [List.mapM_cons, ih]
    simp [source, he]

theorem anyPending_eq {ids : List TaskQueueId} (h : ∀ x ∈ ids, s.Registered x) :
    s.anyPending ids = some ((ids.filterMap s.source).any fun src => !src.isEmpty) := by
  induction ids with
  | nil => rfl
  | cons x ids ih =>
    obtain ⟨e, he⟩ := registered_iff.mp (h x List.mem_cons_self)
    have ih := ih fun y hy => h y (List.mem_cons_of_mem _ hy)
    cases hempty : e.taskSource.isEmpty <;>
      simp [anyPending, he, source_eq he, hempty, ih]

theorem hasPendingTasksUnlocked_eq (hl : s.Linked) (hq : s.Registered q) :
    s.hasPendingTasksUnlocked q =
      some ((s.subsumedBy q).isNone && (s.group q).any fun src => !src.isEmpty) := by
  obtain ⟨e, he⟩ := registered_iff.mp hq
  have hsub := subsumedBy_eq he
  simp only [hasPendingTasksUnlocked, he, Option.bind_eq_bind, Option.bind_some]
  split_ifs with hs hempty
  · obtain ⟨o, ho⟩ := Option.ne_none_iff_exists'.mp hs
    simp [hsub, ho]
  · rw [not_not.mp hs] at hsub
    have hne : e.taskSource.isEmpty = false := by simpa using hempty
    simp [hsub, group, source_eq he, hne]
  · rw [not_not.mp hs] at hsub
    have hne : e.taskSource.isEmpty = true := by simpa using hempty
    rw [← ownerOf_eq he, anyPending_eq (hl q)]
    simp [hsub, group, source_eq he, hne]

end MessageLoopTaskQueues

def TopOf (top : Option (TopTask C)) (L : List (TaskSource C)) : Prop :=
  match top with
  | none => ∀ src ∈ L, src.isEmpty = true
  | some top => (∃ src ∈ L, src.isEmpty = false ∧ src.Leads top) ∧
      ∀ src ∈ L, src.isEmpty = false → ∀ u ∈ src.visible, top.task.key ≤ u.key

theorem TopOf.skip {top : Option (TopTask C)} {L : List (TaskSource C)} (h : TopOf top L)
    {src : TaskSource C} (hempty : src.isEmpty = true) : TopOf top (L ++ [src]) := by
  cases top with
  | none =>
    intro src' hsrc
    rcases List.mem_append.mp hsrc with hsrc | hsrc
    · exact h src' hsrc
    · rw [List.mem_singleton.mp hsrc]
      exact hempty
  | some top =>
    obtain ⟨⟨src', hsrc, hlead⟩, hleast⟩ := h
    refine ⟨⟨src', List.mem_append_left _ hsrc, hlead⟩, fun src'' hsrc hne => ?_⟩
    rcases List.mem_append.mp hsrc with hsrc | hsrc
    · exact hleast src'' hsrc hne
    · rw [List.mem_singleton.mp hsrc, hempty] at hne
      cases hne

theorem TopOf.take {top : Option (TopTask C)} {L : List (TaskSource C)} (h : TopOf top L)
    {src : TaskSource C} {other : TopTask C} (hne : src.isEmpty = false) (hlead : src.Leads other)
    (hlt : ∀ t, top = some t → other.task.key ≤ t.task.key) : TopOf (some other) (L ++ [src]) := by
  refine ⟨⟨src, by simp, hne, hlead⟩, fun src' hsrc hne' u hu => ?_⟩
  rcases List.mem_append.mp hsrc with hsrc | hsrc
  · cases top with
    | none =>
      rw [h src' hsrc] at hne'
      cases hne'
    | some top => exact (hlt top rfl).trans (h.2 src' hsrc hne' u hu)
  · rw [List.mem_singleton.mp hsrc] at hu
    exact hlead.least u hu

theorem TopOf.topTaskUpdater {top : Option (TopTask C)} {L : List (TaskSource C)}
    (h : TopOf top L) (src : TaskSource C) :
    TopOf (MessageLoopTaskQueues.topTaskUpdater top src) (L ++ [src]) := by
  unfold MessageLoopTaskQueues.topTaskUpdater
  split_ifs with hempty
  · exact h.skip hempty
  · have hne : src.isEmpty = false := by simpa using hempty
    obtain ⟨other, hother, hlead⟩ := TaskSource.top_leads hne
    cases top with
    | none =>
      simp only [hother]
      apply h.take hne hlead
      intro t ht
      cases ht
    | some top =>
      simp only [hother]
      split_ifs with hgt
      · rw [DelayedTask.gt_iff_key_lt] at hgt
        apply h.take hne hlead
        intro t ht
        rw [← Option.some.inj ht]
        exact hgt.le
      · rw [DelayedTask.gt_iff_key_lt, not_lt] at hgt
        obtain ⟨⟨src', hsrc', hlead'⟩, hleast⟩ := h
        refine ⟨⟨src', List.mem_append_left _ hsrc', hlead'⟩, fun src'' hsrc hne'' u hu => ?_⟩
        rcases List.mem_append.mp hsrc with hsrc | hsrc
        · exact hleast src'' hsrc hne'' u hu
        · rw [List.mem_singleton.mp hsrc] at hu
          exact hgt.trans (hlead.least u hu)

theorem TopOf.foldl {top : Option (TopTask C)} {L : List (TaskSource C)} (h : TopOf top L)
    (L' : List (TaskSource C)) :
    TopOf (L'.foldl MessageLoopTaskQueues.topTaskUpdater top) (L ++ L') := by
  induction L' generalizing top L with
  | nil => simpa using h
  | cons src L' ih => simpa using ih (h.topTaskUpdater src)

namespace MessageLoopTaskQueues

variable {s : MessageLoopTaskQueues C} {q : TaskQueueId}

theorem peekNextTaskUnlocked_topOf (hl : s.Linked) (hq : s.Registered q) :
    TopOf (s.peekNextTaskUnlocked q) (s.group q) := by
  obtain ⟨e, he⟩ := registered_iff.mp hq
  have hown := ownerOf_eq he
  have hfirst : TopOf (topTaskUpdater none e.taskSource) [e.taskSource] := by
    have h := TopOf.topTaskUpdater (L := []) (show TopOf none [] by simp [TopOf]) e.taskSource
    simpa using h
  simp only [peekNextTaskUnlocked, he, Option.bind_eq_bind, Option.bind_some]
  split_ifs with hnone
  · have hgroup : s.group q = [e.taskSource] := by
      have hnil : e.ownerOf.elems = [] := List.isEmpty_iff.mp hnone
      simp [group, hown, hnil, source_eq he]
    rw [hgroup]
    convert hfirst using 1
    unfold topTaskUpdater
    split_ifs with hempty
    · simp [TaskSource.top, hempty]
    · rfl
  · rw [← hown, sources_eq (hl q)]
    have hgroup : s.group q = [e.taskSource] ++ (s.ownerOf q).filterMap s.source := by
      simp [group, source_eq he]
    rw [hgroup]
    exact hfirst.foldl _

end MessageLoopTaskQueues

end EnvironmentCheck
