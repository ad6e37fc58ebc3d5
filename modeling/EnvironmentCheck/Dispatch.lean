import EnvironmentCheck.SourceSteps
import EnvironmentCheck.VisibleTasks
import Mathlib.Data.List.Pairwise

namespace EnvironmentCheck.MessageLoopTaskQueues

open Transition

variable {C : Type} {s t : MessageLoopTaskQueues C} {q x : TaskQueueId}

theorem Represents.linked {F : OwnerForest TaskQueueId} (h : Represents s F) : s.Linked :=
  fun q x hx => (h.live x).mp (F.owned_live ((h.ownerOf q x).mp hx))

theorem Represents.nodup_group {F : OwnerForest TaskQueueId} (h : Represents s F)
    (q : TaskQueueId) : (q :: s.ownerOf q).Nodup := by
  rw [List.nodup_cons]
  constructor
  · rw [h.ownerOf]
    exact F.not_owns_self q
  · unfold MessageLoopTaskQueues.ownerOf
    cases s.queueEntries q with
    | none => exact List.nodup_nil
    | some e => exact e.ownerOf.nodup

def SourcesNamed (s : MessageLoopTaskQueues C) : Prop :=
  ∀ q src, s.source q = some src → src.taskQueueId = q

structure SoundSources (s : MessageLoopTaskQueues C) : Prop where
  taskQueueId : ∀ q src, s.source q = some src → src.taskQueueId = q
  pauses : ∀ q src, s.source q = some src → 0 ≤ src.secondaryPauseRequests

def PauseOutstanding (s : MessageLoopTaskQueues C) : QueueCall C → Prop
  | .resumeSecondarySource q => ∀ src, s.source q = some src → 0 < src.secondaryPauseRequests
  | _ => True

instance : DecidablePred s.PauseOutstanding
  | .resumeSecondarySource q =>
    inferInstanceAs (Decidable (∀ src ∈ s.source q, 0 < src.secondaryPauseRequests))
  | .createTaskQueue | .dispose _ | .disposeTasks _ | .registerTask _ _ _ _
  | .getNextTaskToRun _ _ _ | .addTaskObserver _ _ _ | .removeTaskObserver _ _ | .setWakeable _ _
  | .merge _ _ | .unmerge _ _ | .pauseSecondarySource _ => .isTrue trivial

/-- What the `FOREVER_DCHECK`s demand, that of `ResumeSecondary` included. -/
def Balanced (s : MessageLoopTaskQueues C) (c : QueueCall C) : Prop :=
  s.Allowed c ∧ s.PauseOutstanding c

instance (c : QueueCall C) : Decidable (s.Balanced c) :=
  inferInstanceAs (Decidable (s.Allowed c ∧ s.PauseOutstanding c))

theorem sourceStep_taskQueueId {c : QueueCall C} {src src' : TaskSource C}
    (hs : SourceStep c q src src') : src'.taskQueueId = src.taskQueueId := by
  cases hs with
  | register task => exact TaskSource.registerTask_taskQueueId
  | pop grade => exact TaskSource.popTask_taskQueueId
  | _ => rfl

theorem sourcesNamed_next (h : s.SourcesNamed) {c : QueueCall C} (hn : s.next c = some t) :
    t.SourcesNamed := by
  intro q src' hq
  rcases source_next hn hq with rfl | ⟨src, hsrc, hs⟩
  · rfl
  · exact (sourceStep_taskQueueId hs).trans (h q src hsrc)

theorem sourcesNamed_createLoop (h : s.SourcesNamed) (hn : s.createLoop = some t) :
    t.SourcesNamed := by
  obtain ⟨hfirst, hsecond⟩ := createLoop_steps hn
  exact sourcesNamed_next (sourcesNamed_next h hfirst) hsecond

theorem sourcesNamed_create (thread : ThreadId) : (create (C := C) thread).SourcesNamed := by
  intro q src hq
  cases hq

theorem sourcesNamed_reachable {cond : MessageLoopTaskQueues C → QueueCall C → Prop}
    {thread : ThreadId} (h : Reachable next cond (create thread) s) : s.SourcesNamed := by
  apply h.invariant
  · exact sourcesNamed_create thread
  · intro s c t _ hs _ hn
    exact sourcesNamed_next hs hn

theorem SourcesNamed.congr (h : s.SourcesNamed) (hs : ∀ x, t.source x = s.source x) :
    t.SourcesNamed := by
  intro q src hq
  rw [hs] at hq
  exact h q src hq

theorem SourcesNamed.mapped (h : s.SourcesNamed) {f : TaskSource C → TaskSource C}
    (hf : ∀ src, (f src).taskQueueId = src.taskQueueId)
    (hs : ∀ y, t.source y = if y = x then (s.source x).map f else s.source y) :
    t.SourcesNamed := by
  intro q src hq
  rw [hs] at hq
  split_ifs at hq with hqx
  · obtain ⟨src', hsrc', rfl⟩ := Option.map_eq_some_iff.mp hq
    rw [hf, h x src' hsrc', hqx]
  · exact h q src hq

theorem sourceStep_pauses {c : QueueCall C} {src src' : TaskSource C} (hs : SourceStep c q src src')
    (hp : 0 ≤ src.secondaryPauseRequests)
    (hc : c = .resumeSecondarySource q → 0 < src.secondaryPauseRequests) :
    0 ≤ src'.secondaryPauseRequests := by
  cases hs with
  | stay => exact hp
  | register task => simpa using hp
  | pop grade => simpa using hp
  | shutDown => exact hp
  | pause =>
    change 0 ≤ src.secondaryPauseRequests + 1
    omega
  | resume he =>
    have hpos := hc he
    change 0 ≤ src.secondaryPauseRequests - 1
    omega

theorem soundSources_next (h : s.SoundSources) {c : QueueCall C} (hc : s.PauseOutstanding c)
    (hn : s.next c = some t) : t.SoundSources := by
  refine ⟨sourcesNamed_next h.taskQueueId hn, fun q src' hq => ?_⟩
  rcases source_next hn hq with rfl | ⟨src, hsrc, hs⟩
  · exact le_rfl
  · apply sourceStep_pauses hs (h.pauses q src hsrc)
    rintro rfl
    exact hc src hsrc

theorem soundSources_reachable {cond : MessageLoopTaskQueues C → QueueCall C → Prop}
    (hcond : ∀ s c, cond s c → s.PauseOutstanding c) {thread : ThreadId}
    (h : Reachable next cond (create thread) s) : s.SoundSources := by
  apply h.invariant
  · constructor <;> simp [source, create]
  · intro s c t _ hs hc hn
    exact soundSources_next hs (hcond s c hc) hn

theorem group_of_mem_visible {v : TaskQueueId × DelayedTask C} (hv : v ∈ s.visible q) :
    ∃ src ∈ s.group q, s.source v.1 = some src ∧ v.2 ∈ src.visible := by
  obtain ⟨hx, src, hsrc, ht⟩ := hv
  exact ⟨src, mem_group.mpr ⟨v.1, hx, hsrc⟩, hsrc, ht⟩

theorem hasPendingTasksUnlocked_iff (hl : s.Linked) (hs : s.SoundSources) (hq : s.Registered q) :
    s.hasPendingTasksUnlocked q = some true ↔ s.subsumedBy q = none ∧ (s.visible q).Nonempty := by
  rw [hasPendingTasksUnlocked_eq hl hq, Option.some.injEq, Bool.and_eq_true, Option.isNone_iff_eq_none,
    List.any_eq_true]
  apply and_congr_right
  intro _
  constructor
  · rintro ⟨src, hsrc, hne⟩
    obtain ⟨x, hx, hsource⟩ := mem_group.mp hsrc
    have hvis : src.visible ≠ [] := by
      rw [ne_eq, ← TaskSource.isEmpty_iff (hs.pauses x src hsource)]
      simpa using hne
    obtain ⟨u, hu⟩ := List.exists_mem_of_ne_nil _ hvis
    exact ⟨(x, u), hx, src, hsource, hu⟩
  · rintro ⟨v, hv⟩
    obtain ⟨src, hsrc, hsource, hvis⟩ := group_of_mem_visible hv
    refine ⟨src, hsrc, ?_⟩
    rw [Bool.not_eq_true', Bool.eq_false_iff, ne_eq,
      TaskSource.isEmpty_iff (hs.pauses _ src hsource)]
    exact List.ne_nil_of_mem hvis

structure Foremost (s : MessageLoopTaskQueues C) (q : TaskQueueId)
    (v : TaskQueueId × DelayedTask C) : Prop where
  visible : v ∈ s.visible q
  least : ∀ w ∈ s.visible q, v.2.key ≤ w.2.key

theorem peekNextTaskUnlocked_some (hl : s.Linked) (hid : s.SourcesNamed) (hq : s.Registered q)
    (hp : s.hasPendingTasksUnlocked q = some true) :
    ∃ top src, s.peekNextTaskUnlocked q = some top ∧ s.source top.taskQueueId = some src ∧
      src.Leads top ∧ (top.taskQueueId = q ∨ top.taskQueueId ∈ s.ownerOf q) := by
  have htop := peekNextTaskUnlocked_topOf hl hq
  rw [hasPendingTasksUnlocked_eq hl hq, Option.some.injEq, Bool.and_eq_true, List.any_eq_true] at hp
  obtain ⟨-, src, hsrc, hne⟩ := hp
  cases hpeek : s.peekNextTaskUnlocked q with
  | none =>
    rw [hpeek] at htop
    rw [htop src hsrc] at hne
    cases hne
  | some top =>
    rw [hpeek] at htop
    obtain ⟨⟨src', hsrc', -, hlead⟩, -⟩ := htop
    obtain ⟨y, hy, hsource⟩ := mem_group.mp hsrc'
    have hyid : top.taskQueueId = y := hlead.taskQueueId.trans (hid y src' hsource)
    exact ⟨top, src', rfl, hyid ▸ hsource, hlead, hyid ▸ hy⟩

theorem peekNextTaskUnlocked_foremost (hl : s.Linked) (hs : s.SoundSources) (hq : s.Registered q)
    {top : TopTask C} (hpeek : s.peekNextTaskUnlocked q = some top) :
    s.Foremost q (top.taskQueueId, top.task) := by
  have htop := peekNextTaskUnlocked_topOf hl hq
  rw [hpeek] at htop
  obtain ⟨⟨src, hsrc, -, hlead⟩, hleast⟩ := htop
  obtain ⟨y, hy, hsource⟩ := mem_group.mp hsrc
  have hyid : top.taskQueueId = y := hlead.taskQueueId.trans (hs.taskQueueId y src hsource)
  constructor
  · exact ⟨hyid ▸ hy, src, hyid ▸ hsource, hlead.visible⟩
  · intro w hw
    obtain ⟨src', hsrc', hsource', hvis⟩ := group_of_mem_visible hw
    apply hleast src' hsrc' _ w.2 hvis
    rw [Bool.eq_false_iff, ne_eq, TaskSource.isEmpty_iff (hs.pauses _ src' hsource')]
    exact List.ne_nil_of_mem hvis

theorem wakeUpIfPending_isSome (hl : s.Linked) (hid : s.SourcesNamed) (hq : s.Registered q) :
    (s.wakeUpIfPending q).isSome := by
  obtain ⟨e, he⟩ := registered_iff.mp hq
  cases hp : s.hasPendingTasksUnlocked q with
  | none =>
    rw [hasPendingTasksUnlocked_eq hl hq] at hp
    cases hp
  | some pending =>
    cases pending with
    | false => simp [wakeUpIfPending, hp]
    | true =>
      obtain ⟨top, src, hpeek, -⟩ := peekNextTaskUnlocked_some hl hid hq hp
      simp [wakeUpIfPending, hp, getNextWakeTimeUnlocked, hpeek, wakeUpUnlocked, he]

theorem getNextTaskToRun_isSome (hl : s.Linked) (hid : s.SourcesNamed) (hq : s.Registered q)
    (thread : ThreadId) (fromTime : TimePoint) :
    (s.getNextTaskToRun thread q fromTime).isSome := by
  obtain ⟨e, he⟩ := registered_iff.mp hq
  cases hp : s.hasPendingTasksUnlocked q with
  | none =>
    rw [hasPendingTasksUnlocked_eq hl hq] at hp
    cases hp
  | some pending =>
    cases pending with
    | false => simp [getNextTaskToRun, hp]
    | true =>
      obtain ⟨top, src, hpeek, hsource, -⟩ := peekNextTaskUnlocked_some hl hid hq hp
      have hat : ((s.rearm q top.task.targetTime).queueEntries top.taskQueueId).isSome := by
        apply registered_modifyEntry.mpr
        unfold source at hsource
        obtain ⟨e', he', -⟩ := Option.map_eq_some_iff.mp hsource
        exact registered_iff.mpr ⟨e', he'⟩
      obtain ⟨e', he'⟩ := Option.isSome_iff_exists.mp hat
      simp only [getNextTaskToRun, hp, hpeek, getNextWakeTimeUnlocked, wakeUpUnlocked, he,
        Option.bind_eq_bind, Option.bind_some, Bool.not_true, Bool.false_eq_true, ↓reduceIte,
        Option.pure_def]
      split_ifs <;> simp [he']

def heap (s : MessageLoopTaskQueues C) (q : TaskQueueId) (h : TaskHeap) : List (DelayedTask C) :=
  ((s.source q).map fun src => (src.heap h).elems).getD []

theorem heap_eq {src : TaskSource C} (hsrc : s.source q = some src) (h : TaskHeap) :
    s.heap q h = (src.heap h).elems := by
  simp [heap, hsrc]

theorem mem_heap_of_visible {v : TaskQueueId × DelayedTask C} (hv : v ∈ s.visible q) :
    v.2 ∈ s.heap v.1 v.2.taskSourceGrade.heap := by
  obtain ⟨-, src, hsrc, ht⟩ := hv
  rw [heap_eq hsrc]
  exact TaskSource.mem_visible_iff ht

structure DistinctOrders (s : MessageLoopTaskQueues C) : Prop where
  within : ∀ q h, ((s.heap q h).map DelayedTask.order).Nodup
  across : ∀ q h t q' h' t', t ∈ s.heap q h → t' ∈ s.heap q' h' → t.order = t'.order →
    q = q' ∧ h = h'

def pendingOrders (s : MessageLoopTaskQueues C) (q : TaskQueueId) : List ℕ :=
  (s.heap q .primary).map DelayedTask.order ++ (s.heap q .secondary).map DelayedTask.order

theorem heap_of_not_registered (hq : ¬ s.Registered q) (h : TaskHeap) : s.heap q h = [] := by
  have hnone : s.queueEntries q = none := Option.not_isSome_iff_eq_none.mp hq
  simp [heap, source, hnone]

theorem distinctOrders_of_nodup {n : ℕ} (hfresh : ∀ q, s.Registered q → q < n)
    (hn : ((List.range n).flatMap s.pendingOrders).Nodup) : s.DistinctOrders := by
  rw [List.nodup_flatMap] at hn
  obtain ⟨hwithin, hacross⟩ := hn
  have hlt : ∀ {q h} {t : DelayedTask C}, t ∈ s.heap q h → q < n := by
    intro q h t ht
    by_contra hge
    have hq : ¬ s.Registered q := fun hr => hge (hfresh q hr)
    rw [heap_of_not_registered hq] at ht
    cases ht
  have horder : ∀ {q h} {t : DelayedTask C}, t ∈ s.heap q h → t.order ∈ s.pendingOrders q := by
    intro q h t ht
    cases h with
    | primary => exact List.mem_append_left _ (List.mem_map_of_mem ht)
    | secondary => exact List.mem_append_right _ (List.mem_map_of_mem ht)
  constructor
  · intro q h
    by_cases hq : q < n
    · have hnodup := List.nodup_append.mp (hwithin q (List.mem_range.mpr hq))
      cases h with
      | primary => exact hnodup.1
      | secondary => exact hnodup.2.1
    · have hnot : ¬ s.Registered q := fun hr => hq (hfresh q hr)
      rw [heap_of_not_registered hnot]
      exact List.nodup_nil
  · intro q h t q' h' t' ht ht' heq
    have hqq : q = q' := by
      by_contra hne
      have hsymm : Std.Symm (Function.onFun List.Disjoint s.pendingOrders) :=
        ⟨fun _ _ hd _ hx hy => hd hy hx⟩
      have hdisjoint : (s.pendingOrders q).Disjoint (s.pendingOrders q') :=
        hacross.forall (List.mem_range.mpr (hlt ht)) (List.mem_range.mpr (hlt ht')) hne
      exact hdisjoint (horder ht) (heq ▸ horder ht')
    subst hqq
    refine ⟨rfl, ?_⟩
    have hnodup := (List.nodup_append.mp (hwithin q (List.mem_range.mpr (hlt ht)))).2.2
    cases h with
    | primary =>
      cases h' with
      | primary => rfl
      | secondary =>
        exact absurd heq (hnodup _ (List.mem_map_of_mem ht) _ (List.mem_map_of_mem ht'))
    | secondary =>
      cases h' with
      | primary =>
        exact absurd heq.symm (hnodup _ (List.mem_map_of_mem ht') _ (List.mem_map_of_mem ht))
      | secondary => rfl

theorem DistinctOrders.eq_of_order (h : s.DistinctOrders) {v w : TaskQueueId × DelayedTask C}
    (hv : v ∈ s.visible q) (hw : w ∈ s.visible q) (ho : v.2.order = w.2.order) : v = w := by
  have hmv := mem_heap_of_visible hv
  have hmw := mem_heap_of_visible hw
  obtain ⟨hq, hh⟩ := h.across _ _ _ _ _ _ hmv hmw ho
  rw [← hq, ← hh] at hmw
  have ht : v.2 = w.2 := List.inj_on_of_nodup_map (h.within v.1 _) hmv hmw ho
  exact Prod.ext hq ht

theorem Foremost.unique (h : s.DistinctOrders) {v w : TaskQueueId × DelayedTask C}
    (hv : s.Foremost q v) (hw : s.Foremost q w) : v = w := by
  apply h.eq_of_order hv.visible hw.visible
  have hkey : v.2.key = w.2.key := le_antisymm (hv.least w hw.visible) (hw.least v hv.visible)
  exact congrArg (fun k : TimePoint ×ₗ ℕ => (ofLex k).2) hkey

theorem popTask_heaps {top : TopTask C} {src : TaskSource C}
    (hsrc : s.source top.taskQueueId = some src) (hlead : src.Leads top)
    (ht : ∀ x, t.source x = if x = top.taskQueueId then
      (s.source top.taskQueueId).map (·.popTask top.task.taskSourceGrade) else s.source x) :
    s.heap top.taskQueueId top.task.taskSourceGrade.heap =
        top.task :: t.heap top.taskQueueId top.task.taskSourceGrade.heap ∧
      ∀ x h, (x, h) ≠ (top.taskQueueId, top.task.taskSourceGrade.heap) → t.heap x h = s.heap x h := by
  have hpopped : t.source top.taskQueueId = some (src.popTask top.task.taskSourceGrade) := by
    rw [ht, if_pos rfl, hsrc, Option.map_some]
  constructor
  · rw [heap_eq hsrc, heap_eq hpopped, TaskSource.popTask_heap, if_pos rfl]
    exact PriorityQueue.elems_of_top hlead.front
  · intro x h hne
    by_cases hx : x = top.taskQueueId
    · subst hx
      have hh : h ≠ top.task.taskSourceGrade.heap := fun he => hne (by rw [he])
      rw [heap_eq hsrc, heap_eq hpopped, TaskSource.popTask_heap, if_neg hh]
    · have hsame : t.source x = s.source x := by rw [ht, if_neg hx]
      simp only [heap, hsame]

def DueForemost (s : MessageLoopTaskQueues C) (q : TaskQueueId) (fromTime : TimePoint)
    (v : TaskQueueId × DelayedTask C) : Prop :=
  s.subsumedBy q = none ∧ s.Foremost q v ∧ v.2.targetTime ≤ fromTime

theorem getNextTaskToRun_dispatches {thread₀ : ThreadId}
    (hr : Reachable next Balanced (create (C := C) thread₀) s) (hd : s.DistinctOrders)
    (q : TaskQueueId) (hq : s.Registered q) (thread : ThreadId) (fromTime : TimePoint) :
    (∀ v, s.DueForemost q fromTime v →
        ∃ t, s.getNextTaskToRun thread q fromTime = some (v.2.task, t) ∧
          (s.heap v.1 v.2.taskSourceGrade.heap).Perm
            (v.2 :: t.heap v.1 v.2.taskSourceGrade.heap) ∧
          ∀ x h, (x, h) ≠ (v.1, v.2.taskSourceGrade.heap) → t.heap x h = s.heap x h) ∧
      ((∀ v, ¬ s.DueForemost q fromTime v) →
        ∃ t, s.getNextTaskToRun thread q fromTime = some (none, t) ∧
          ∀ x h, t.heap x h = s.heap x h) := by
  obtain ⟨F, hF⟩ := represents_reachable (fun _ _ hc => hc.1) hr
  have hs := soundSources_reachable (fun _ _ hc => hc.2) hr
  have hl := hF.linked
  obtain ⟨⟨c, t⟩, hg⟩ := Option.isSome_iff_exists.mp
    (getNextTaskToRun_isSome hl hs.taskQueueId hq thread fromTime)
  have hpending := hasPendingTasksUnlocked_iff hl hs hq
  have hfirst : ∀ top, s.peekNextTaskUnlocked q = some top →
      s.Foremost q (top.taskQueueId, top.task) :=
    fun top htop => peekNextTaskUnlocked_foremost hl hs hq htop
  rcases source_getNextTaskToRun hg with ⟨rfl, hsame, hlate⟩ | ⟨top, hp, htop, hdue, rfl, hsource⟩
  · have hnone : ∀ v, ¬ s.DueForemost q fromTime v := by
      intro v ⟨hsub, hv, hdue⟩
      obtain ⟨top, htop, hlt⟩ := hlate (hpending.mpr ⟨hsub, v, hv.visible⟩)
      have htopv := hv.unique hd (hfirst top htop)
      subst htopv
      exact absurd hdue (not_le.mpr hlt)
    refine ⟨fun v hv => absurd hv (hnone v), fun _ => ⟨t, hg, fun x h => ?_⟩⟩
    simp only [heap, hsame]
  · have hsub := (hpending.mp hp).1
    have hdueTop : s.DueForemost q fromTime (top.taskQueueId, top.task) :=
      ⟨hsub, hfirst top htop, hdue⟩
    refine ⟨fun v ⟨_, hv, _⟩ => ?_, fun hnone => absurd hdueTop (hnone _)⟩
    have htopv := hv.unique hd (hfirst top htop)
    subst htopv
    obtain ⟨top', src, htop', hsrc, hlead, -⟩ :=
      peekNextTaskUnlocked_some hl hs.taskQueueId hq hp
    obtain rfl : top = top' := Option.some.inj (htop.symm.trans htop')
    obtain ⟨hhead, hrest⟩ := popTask_heaps hsrc hlead hsource
    refine ⟨t, hg, ?_, hrest⟩
    rw [hhead]

def dispatchRun : List (QueueCall ℕ) :=
  [.createTaskQueue, .createTaskQueue, .registerTask 0 (some 10) ⟨5⟩ .kUnspecified,
    .registerTask 1 (some 11) ⟨3⟩ .kDartMicroTasks, .merge 0 1]

theorem getNextTaskToRun_dispatches_dispatchRun : ∃ s t,
    run next (create 0) dispatchRun = some s ∧ s.getNextTaskToRun 7 0 ⟨4⟩ = some (some 11, t) ∧
      (s.heap 1 .secondary).Perm (⟨1, some 11, ⟨3⟩, .kDartMicroTasks⟩ :: t.heap 1 .secondary) := by
  have hm : Meets next Balanced (create 0) dispatchRun := by decide
  have hr : Reachable next Balanced (create 0) ((run next (create 0) dispatchRun).get rfl) :=
    ⟨dispatchRun, hm, rfl⟩
  obtain ⟨F, hF⟩ := represents_reachable (fun _ _ hc => hc.1) hr
  have hs := soundSources_reachable (fun _ _ hc => hc.2) hr
  have horders : DistinctOrders _ := distinctOrders_of_nodup hF.fresh (by decide)
  have hforemost := peekNextTaskUnlocked_foremost hF.linked hs (q := 0) rfl rfl
  obtain ⟨t, ht, hheap, -⟩ := (getNextTaskToRun_dispatches hr horders 0 rfl 7 ⟨4⟩).1 _
    ⟨rfl, hforemost, by decide⟩
  exact ⟨_, t, rfl, ht, hheap⟩

end EnvironmentCheck.MessageLoopTaskQueues
