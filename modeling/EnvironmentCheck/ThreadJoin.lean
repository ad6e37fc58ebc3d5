import EnvironmentCheck.LoopLifetimes
import EnvironmentCheck.PendingTasks

namespace EnvironmentCheck

open MessageLoopTaskQueues Transition

variable {C D : Type}

inductive ThreadTask (C : Type) where
  | other (c : C)
  | terminateCurrent
  deriving DecidableEq

def QueueCall.map (f : C → D) : QueueCall C → QueueCall D
  | .createTaskQueue => .createTaskQueue
  | .dispose q => .dispose q
  | .disposeTasks q => .disposeTasks q
  | .registerTask q task time grade => .registerTask q (Option.map f task) time grade
  | .getNextTaskToRun thread q time => .getNextTaskToRun thread q time
  | .addTaskObserver q key callback => .addTaskObserver q key (Option.map f callback)
  | .removeTaskObserver q key => .removeTaskObserver q key
  | .setWakeable q wakeable => .setWakeable q wakeable
  | .merge o x => .merge o x
  | .unmerge o x => .unmerge o x
  | .pauseSecondarySource q => .pauseSecondarySource q
  | .resumeSecondarySource q => .resumeSecondarySource q

def terminates (t : DelayedTask (ThreadTask C)) : Bool :=
  match t.task with
  | some .terminateCurrent => true
  | _ => false

namespace MessageLoopTaskQueues

/-- The loop that runs the tasks of a queue. -/
def dispatcher (s : MessageLoopTaskQueues C) (q : TaskQueueId) : TaskQueueId :=
  (s.subsumedBy q).getD q

def terminatesPending (s : MessageLoopTaskQueues (ThreadTask C)) (q : TaskQueueId) : ℕ :=
  (s.pendingTasks q).countP terminates

variable {s t : MessageLoopTaskQueues (ThreadTask C)} {q x : TaskQueueId}

theorem terminatesPending_congr (h : t.pendingTasks x = s.pendingTasks x) :
    t.terminatesPending x = s.terminatesPending x := by
  rw [terminatesPending, h, terminatesPending]

theorem terminatesPending_cons {task : DelayedTask (ThreadTask C)}
    (h : (t.pendingTasks x).Perm (task :: s.pendingTasks x)) :
    t.terminatesPending x = s.terminatesPending x + if terminates task then 1 else 0 := by
  rw [terminatesPending, h.countP_eq, List.countP_cons, terminatesPending]

theorem Gains.terminatesPending {task : DelayedTask (ThreadTask C)} (h : Gains s t q task)
    (x : TaskQueueId) : t.terminatesPending x =
      s.terminatesPending x + if x = q ∧ terminates task = true then 1 else 0 := by
  by_cases hx : x = q
  · subst hx
    simp [terminatesPending_cons h.perm]
  · rw [terminatesPending_congr (h.others x hx)]
    simp [hx]

theorem Pops.terminatesPending {v : TaskQueueId × DelayedTask (ThreadTask C)} (h : Pops s t v)
    (x : TaskQueueId) : s.terminatesPending x =
      t.terminatesPending x + if x = v.1 ∧ terminates v.2 = true then 1 else 0 := by
  by_cases hx : x = v.1
  · subst hx
    simp [terminatesPending_cons h.perm]
  · rw [terminatesPending_congr (h.same hx)]
    simp [hx]

theorem Drops.terminatesPending (h : Drops s t q) (x : TaskQueueId) :
    t.terminatesPending x = if x = q ∨ x ∈ s.ownerOf q then 0 else s.terminatesPending x := by
  split_ifs with hx
  · rw [MessageLoopTaskQueues.terminatesPending, h.gone x hx, List.countP_nil]
  · exact terminatesPending_congr (h.others x hx)

theorem SameLinks.dispatcher {s t : MessageLoopTaskQueues C} (h : SameLinks s t) (x : TaskQueueId) :
    t.dispatcher x = s.dispatcher x := by
  rw [MessageLoopTaskQueues.dispatcher, h.subsumedBy, MessageLoopTaskQueues.dispatcher]

theorem subsumedBy_eq_none_of_pending {s : MessageLoopTaskQueues C} (hl : s.Linked)
    (hp : s.hasPendingTasksUnlocked q = some true) :
    s.subsumedBy q = none := by
  rw [hasPendingTasksUnlocked_eq hl (registered_of_hasPendingTasksUnlocked hp), Option.some.injEq,
    Bool.and_eq_true, Option.isNone_iff_eq_none] at hp
  exact hp.1

end MessageLoopTaskQueues

/-- Threads by the queues of their loops. `ran` tells for each terminate task the queue it was
posted on and the loop that ran it. -/
structure RunningThreads (C : Type) where
  queues : MessageLoopTaskQueues (ThreadTask C)
  joined : TaskQueueId → Bool
  terminated : TaskQueueId → Bool
  ended : TaskQueueId → Bool
  ran : List (TaskQueueId × TaskQueueId)

inductive ThreadEvent (C : Type) where
  | start
  | call (c : QueueCall C)
  | join (x : TaskQueueId) (now : TimePoint)
  | dispatch (u : TaskQueueId) (now : TimePoint)
  | loopEnds (u : TaskQueueId)

namespace RunningThreads

def create (thread : ThreadId) : RunningThreads C :=
  ⟨.create thread, fun _ => false, fun _ => false, fun _ => false, []⟩

def byClient (l : RunningThreads C) : QueueCall C → Bool
  | .registerTask _ _ _ _ => true
  | .addTaskObserver _ _ _ => true
  | .removeTaskObserver _ _ => true
  | .merge o x => !l.ended o && !l.ended x
  | .unmerge _ _ => true
  | .pauseSecondarySource _ => true
  | .resumeSecondarySource _ => true
  | _ => false

def terminate (l : RunningThreads C) (x u : TaskQueueId) : RunningThreads C :=
  { l with terminated := Function.update l.terminated u true, ran := l.ran ++ [(x, u)] }

section Terminate

variable (l : RunningThreads C) (x u : TaskQueueId)

@[simp] theorem terminate_queues : (l.terminate x u).queues = l.queues := rfl

@[simp] theorem terminate_joined : (l.terminate x u).joined = l.joined := rfl

@[simp] theorem terminate_ended : (l.terminate x u).ended = l.ended := rfl

@[simp] theorem terminate_ran : (l.terminate x u).ran = l.ran ++ [(x, u)] := rfl

theorem terminate_terminated :
    (l.terminate x u).terminated = Function.update l.terminated u true := rfl

end Terminate

def dispatch (l : RunningThreads C) (u : TaskQueueId) (now : TimePoint) :
    Option (RunningThreads C) := do
  let (invocation, queues) ← l.queues.getNextTaskToRun u u now
  match invocation with
  | some .terminateCurrent =>
    let top ← l.queues.peekNextTaskUnlocked u
    return { l with queues := queues }.terminate top.taskQueueId u
  | _ => return { l with queues := queues }

def next (l : RunningThreads C) : ThreadEvent C → Option (RunningThreads C)
  | .start => l.queues.createLoop.map fun queues => { l with queues := queues }
  | .call c =>
    if l.byClient c then
      (l.queues.next (c.map .other)).map fun queues => { l with queues := queues }
    else none
  | .join x now =>
    if l.joined x then some l
    else if l.terminated x then some { l with joined := Function.update l.joined x true }
    else
      (l.queues.registerTask x (some .terminateCurrent) now .kUnspecified).map fun queues =>
        { l with queues := queues, joined := Function.update l.joined x true }
  | .dispatch u now => if l.ended u then none else l.dispatch u now
  | .loopEnds u =>
    if l.terminated u && !l.ended u then
      (l.queues.disposeTasks u).map fun queues =>
        { l with queues := queues, ended := Function.update l.ended u true }
    else none

/-- A terminate task runs on the loop it was posted to, no loop is terminated otherwise, and a
thread is joined only while its loop is terminated or a running loop has its task. -/
structure EndsOwnLoop (l : RunningThreads C) : Prop where
  own : ∀ x u, (x, u) ∈ l.ran → u = x
  stops : ∀ u, l.terminated u = true → (u, u) ∈ l.ran
  ends : ∀ x, l.joined x = true → l.terminated x = true ∨
    (0 < l.queues.terminatesPending x ∧ l.ended (l.queues.dispatcher x) = false)

/-- No terminate task is taken from a subsumed queue, dropped with one, or posted on one whose owner
has ended. -/
def Unmerged (l : RunningThreads C) : ThreadEvent C → Prop
  | .start => True
  | .call _ => True
  | .join x _ => l.joined x = false → l.ended (l.queues.dispatcher x) = false
  | .dispatch u now => l.queues.hasPendingTasksUnlocked u = some true →
      ∀ top ∈ l.queues.peekNextTaskUnlocked u, top.task.targetTime ≤ now →
        terminates top.task = true → l.queues.subsumedBy top.taskQueueId = none
  | .loopEnds u => ∀ x ∈ l.queues.ownerOf u, l.queues.terminatesPending x = 0

instance (l : RunningThreads C) : DecidablePred l.Unmerged
  | .start => .isTrue trivial
  | .call _ => .isTrue trivial
  | .join x _ => inferInstanceAs (Decidable
      (l.joined x = false → l.ended (l.queues.dispatcher x) = false))
  | .dispatch u now => inferInstanceAs (Decidable
      (l.queues.hasPendingTasksUnlocked u = some true →
        ∀ top ∈ l.queues.peekNextTaskUnlocked u, top.task.targetTime ≤ now →
          terminates top.task = true → l.queues.subsumedBy top.taskQueueId = none))
  | .loopEnds u => inferInstanceAs (Decidable
      (∀ x ∈ l.queues.ownerOf u, l.queues.terminatesPending x = 0))

structure Inv (l : RunningThreads C) : Prop where
  forest : ∃ F, Represents l.queues F
  named : l.queues.SourcesNamed
  once : ∀ x, l.queues.terminatesPending x + (l.ran.map Prod.fst).count x ≤
    if l.joined x then 1 else 0
  joined : ∀ x, l.joined x = true → l.queues.Registered x
  ended : ∀ x, l.ended x = true → l.terminated x = true

variable {l m : RunningThreads C} {x u : TaskQueueId}

theorem Inv.terminatesPending_le (h : l.Inv) (x : TaskQueueId) :
    l.queues.terminatesPending x + (l.ran.map Prod.fst).count x ≤ 1 := by
  have honce := h.once x
  split_ifs at honce <;> omega

theorem count_ran_pos (h : (x, u) ∈ l.ran) : 0 < (l.ran.map Prod.fst).count x :=
  List.count_pos_iff.mpr (List.mem_map_of_mem h)

theorem not_terminated_of_pending (h : l.Inv) (hp : l.EndsOwnLoop)
    (hx : 0 < l.queues.terminatesPending x) : l.terminated x = false := by
  rw [Bool.eq_false_iff]
  intro hterm
  have hran := count_ran_pos (hp.stops x hterm)
  have hle := h.terminatesPending_le x
  omega

theorem joined_of_pending (h : l.Inv) (hx : 0 < l.queues.terminatesPending x) :
    l.joined x = true := by
  have honce := h.once x
  split_ifs at honce with hj
  · exact hj
  · omega

theorem not_ended_of_pending (h : l.Inv) (hp : l.EndsOwnLoop)
    (hx : 0 < l.queues.terminatesPending x) : l.ended x = false := by
  rw [Bool.eq_false_iff]
  intro hend
  have hterm := not_terminated_of_pending h hp hx
  rw [h.ended x hend] at hterm
  cases hterm

theorem terminatesPending_call {F : OwnerForest TaskQueueId} (hF : Represents l.queues F)
    (hid : l.queues.SourcesNamed) {c : QueueCall C} (hc : l.byClient c = true)
    {t : MessageLoopTaskQueues (ThreadTask C)} (hn : l.queues.next (c.map .other) = some t)
    (x : TaskQueueId) : t.terminatesPending x = l.queues.terminatesPending x := by
  have hstep := tasksStep_next hF hid hn
  cases c with
  | registerTask q task time grade =>
    have hother : terminates (C := C) ⟨orderStamp l.queues.order, Option.map .other task, time, grade⟩ =
        false := by
      cases task <;> rfl
    rw [Gains.terminatesPending hstep, hother]
    simp
  | createTaskQueue => cases hc
  | dispose q => cases hc
  | disposeTasks q => cases hc
  | getNextTaskToRun thread q time => cases hc
  | setWakeable q wakeable => cases hc
  | _ => exact terminatesPending_congr (hstep x)

theorem dispatcher_call {F : OwnerForest TaskQueueId} (hF : Represents l.queues F) {c : QueueCall C}
    (hc : l.byClient c = true) {t : MessageLoopTaskQueues (ThreadTask C)}
    (hn : l.queues.next (c.map .other) = some t) (hx : l.ended x = false)
    (halive : l.ended (l.queues.dispatcher x) = false) : l.ended (t.dispatcher x) = false := by
  have same : SameLinks l.queues t → l.ended (t.dispatcher x) = false := by
    intro hlinks
    rwa [hlinks.dispatcher]
  cases c with
  | createTaskQueue => cases hc
  | dispose q => cases hc
  | disposeTasks q => cases hc
  | getNextTaskToRun thread q time => cases hc
  | setWakeable q wakeable => cases hc
  | registerTask q task time grade => exact same (sameLinks_registerTask hn)
  | addTaskObserver q key callback =>
    rw [addTaskObserver_cases hn] at same ⊢
    exact same (sameLinks_modifyEntry (fun _ => rfl) fun _ => rfl)
  | removeTaskObserver q key =>
    rw [removeTaskObserver_cases hn] at same ⊢
    exact same (sameLinks_modifyEntry (fun _ => rfl) fun _ => rfl)
  | merge o y =>
    obtain ⟨⟨b, w⟩, hm, rfl⟩ := Option.map_eq_some_iff.mp hn
    obtain ⟨rfl, -⟩ | ⟨-, hne, -, hy, -, -, -, hw⟩ := merge_cases hm
    · exact halive
    · rw [(sameLinks_wakeUpIfPending hw).dispatcher, dispatcher, subsumedBy_setMerged hne hy]
      split_ifs
      · simp only [byClient, Bool.and_eq_true, Bool.not_eq_true'] at hc
        exact hc.1
      · exact halive
  | unmerge o y =>
    obtain ⟨⟨b, w⟩, hm, rfl⟩ := Option.map_eq_some_iff.mp hn
    obtain ⟨-, rfl⟩ | ⟨-, -, hmem, v, hv, hw⟩ := unmerge_cases hm
    · exact halive
    · have hne : o ≠ y := fun he => F.not_owns_self y (he ▸ (hF.ownerOf o y).mp hmem)
      have hlinks := (sameLinks_wakeUpIfPending hv).trans (sameLinks_wakeUpIfPending hw)
      rw [hlinks.dispatcher, dispatcher, subsumedBy_setUnmerged hne]
      split_ifs
      · exact hx
      · exact halive
  | pauseSecondarySource q =>
    rw [(pauseSecondarySource_cases hn).2] at same ⊢
    exact same (sameLinks_modifyEntry (fun _ => rfl) fun _ => rfl)
  | resumeSecondarySource q => exact same (sameLinks_resumeSecondarySource hn)

theorem endsOwnLoop_call {F : OwnerForest TaskQueueId} (h : l.Inv) (hF : Represents l.queues F)
    (hp : l.EndsOwnLoop) {c : QueueCall C} (hc : l.byClient c = true)
    {t : MessageLoopTaskQueues (ThreadTask C)} (hn : l.queues.next (c.map .other) = some t) :
    EndsOwnLoop { l with queues := t } := by
  refine ⟨hp.own, hp.stops, fun x hx => ?_⟩
  cases hp.ends x hx with
  | inl hterm => exact .inl hterm
  | inr hpend =>
    refine .inr ⟨?_, ?_⟩
    · rw [terminatesPending_call hF h.named hc hn]
      exact hpend.1
    · exact dispatcher_call hF hc hn (not_ended_of_pending h hp hpend.1) hpend.2

theorem dispatcher_createLoop {s t : MessageLoopTaskQueues C} (hn : s.createLoop = some t)
    (hx : x ≠ s.taskQueueIdCounter) : t.dispatcher x = s.dispatcher x := by
  rw [dispatcher, MessageLoopTaskQueues.subsumedBy, createLoop_queueEntries hn, if_neg hx]
  rfl

theorem pendingTasks_createLoop {s t : MessageLoopTaskQueues C} (hn : s.createLoop = some t)
    (hx : x ≠ s.taskQueueIdCounter) : t.pendingTasks x = s.pendingTasks x := by
  apply pendingTasks_congr
  rw [source, createLoop_queueEntries hn, if_neg hx]
  rfl

theorem endsOwnLoop_start {F : OwnerForest TaskQueueId} (h : l.Inv) (hF : Represents l.queues F)
    (hp : l.EndsOwnLoop) {t : MessageLoopTaskQueues (ThreadTask C)}
    (hn : l.queues.createLoop = some t) : EndsOwnLoop { l with queues := t } := by
  refine ⟨hp.own, hp.stops, fun x hx => ?_⟩
  have hne : x ≠ l.queues.taskQueueIdCounter := (hF.fresh x (h.joined x hx)).ne
  simp only [dispatcher_createLoop hn hne, terminatesPending_congr (pendingTasks_createLoop hn hne)]
  exact hp.ends x hx

theorem dispatch_cases {F : OwnerForest TaskQueueId} (hF : Represents l.queues F)
    (hid : l.queues.SourcesNamed) {now : TimePoint} (h : l.dispatch u now = some m) :
    ∃ t, SameLinks l.queues t ∧ l.queues.next (.getNextTaskToRun u u now) = some t ∧
      ((m = { l with queues := t } ∧ (∀ x, t.source x = l.queues.source x) ∧
          (l.queues.hasPendingTasksUnlocked u = some true →
            ∃ top, l.queues.peekNextTaskUnlocked u = some top ∧ now < top.task.targetTime)) ∨
        ∃ top, l.queues.hasPendingTasksUnlocked u = some true ∧
          l.queues.peekNextTaskUnlocked u = some top ∧ top.task.targetTime ≤ now ∧
          (top.taskQueueId = u ∨ top.taskQueueId ∈ l.queues.ownerOf u) ∧
          Pops l.queues t (top.taskQueueId, top.task) ∧
          m = if terminates top.task then { l with queues := t }.terminate top.taskQueueId u
            else { l with queues := t }) := by
  simp only [dispatch, Option.bind_eq_bind, Option.bind_eq_some_iff] at h
  obtain ⟨⟨c, t⟩, hg, h⟩ := h
  refine ⟨t, sameLinks_getNextTaskToRun hg, by rw [MessageLoopTaskQueues.next, hg]; rfl, ?_⟩
  obtain ⟨rfl, hs, hlate⟩ | ⟨top, hpend, htop, hdue, rfl, hmem, hpop⟩ :=
    getNextTaskToRun_pops hF hid hg
  · exact .inl ⟨(Option.some.inj h).symm, hs, hlate⟩
  · refine .inr ⟨top, hpend, htop, hdue, hmem, hpop, ?_⟩
    rw [htop] at h
    unfold terminates
    cases htask : top.task.task with
    | none =>
      rw [htask] at h
      exact (Option.some.inj h).symm
    | some c =>
      rw [htask] at h
      cases c with
      | other c => exact (Option.some.inj h).symm
      | terminateCurrent => exact (Option.some.inj h).symm

theorem endsOwnLoop_terminate (hp : l.EndsOwnLoop) {t : MessageLoopTaskQueues (ThreadTask C)}
    (hlinks : SameLinks l.queues t)
    (hcount : ∀ x, x ≠ u → l.queues.terminatesPending x = t.terminatesPending x) :
    EndsOwnLoop (terminate { l with queues := t } u u) := by
  refine ⟨?_, ?_, ?_⟩
  · intro x w hw
    cases List.mem_append.mp hw with
    | inl hold => exact hp.own x w hold
    | inr hnew =>
      obtain ⟨rfl, rfl⟩ := Prod.mk.inj (List.mem_singleton.mp hnew)
      rfl
  · intro w hw
    by_cases hwu : w = u
    · subst hwu
      simp
    · rw [terminate_terminated, Function.update_of_ne hwu] at hw
      exact List.mem_append_left _ (hp.stops w hw)
  · intro x hx
    by_cases hxu : x = u
    · subst hxu
      exact .inl (Function.update_self ..)
    · have hx' := hp.ends x hx
      rw [hcount x hxu] at hx'
      rw [terminate_terminated, Function.update_of_ne hxu]
      simpa only [terminate_queues, terminate_ended, hlinks.dispatcher] using hx'

theorem endsOwnLoop_dispatch_iff {F : OwnerForest TaskQueueId} (h : l.Inv)
    (hF : Represents l.queues F) (hp : l.EndsOwnLoop) {now : TimePoint}
    (hn : l.dispatch u now = some m) : m.EndsOwnLoop ↔ l.Unmerged (.dispatch u now) := by
  obtain ⟨t, hlinks, -, ⟨rfl, hs, hlate⟩ | ⟨top, hpend, htop, hdue, hmem, hpop, rfl⟩⟩ :=
    dispatch_cases hF h.named hn
  · apply iff_of_true
    · refine ⟨hp.own, hp.stops, fun x hx => ?_⟩
      simp only [hlinks.dispatcher, terminatesPending_congr (pendingTasks_congr (hs x))]
      exact hp.ends x hx
    · intro hpend top htop hdue
      obtain ⟨top', htop', hlt⟩ := hlate hpend
      obtain rfl : top' = top := Option.some.inj (htop'.symm.trans htop)
      exact absurd hdue (not_le.mpr hlt)
  · have hfree := subsumedBy_eq_none_of_pending hF.linked hpend
    have hcount := hpop.terminatesPending
    have hcond : l.Unmerged (.dispatch u now) ↔
        (terminates top.task = true → top.taskQueueId = u) := by
      simp only [Unmerged, hpend, htop, Option.mem_def, Option.some.injEq, forall_const,
        forall_eq', hdue]
      apply forall_congr'
      intro _
      constructor
      · intro hnone
        cases hmem with
        | inl he => exact he
        | inr hown =>
          have howner : F.owner top.taskQueueId = some u := (hF.ownerOf _ _).mp hown
          rw [hF.owner, howner] at hnone
          cases hnone
      · intro he
        rw [he]
        exact hfree
    rw [hcond]
    split_ifs with hterm
    · constructor
      · intro hm _
        exact (hm.own top.taskQueueId u (by simp)).symm
      · intro he
        have he := he hterm
        rw [he]
        apply endsOwnLoop_terminate hp hlinks
        intro x hx
        rw [hcount x, if_neg (fun hand => hx (hand.1.trans he)), Nat.add_zero]
    · apply iff_of_true
      · refine ⟨hp.own, hp.stops, fun x hx => ?_⟩
        have hx' := hp.ends x hx
        rw [hcount x, if_neg (fun hand => hterm hand.2), Nat.add_zero] at hx'
        simpa only [hlinks.dispatcher] using hx'
      · intro htrue
        exact absurd htrue hterm

theorem dispatcher_ne {F : OwnerForest TaskQueueId} (hF : Represents l.queues F) (hxu : x ≠ u)
    (hown : x ∉ l.queues.ownerOf u) : l.queues.dispatcher x ≠ u := by
  intro he
  unfold dispatcher at he
  cases hsub : l.queues.subsumedBy x with
  | none =>
    rw [hsub] at he
    exact hxu he
  | some o =>
    rw [hsub] at he
    subst he
    apply hown
    rw [hF.ownerOf, OwnerForest.Owns, ← hF.owner]
    exact hsub

theorem endsOwnLoop_loopEnds_iff {F : OwnerForest TaskQueueId} (h : l.Inv)
    (hF : Represents l.queues F) (hp : l.EndsOwnLoop) (hu : l.terminated u = true)
    {t : MessageLoopTaskQueues (ThreadTask C)} (hn : l.queues.disposeTasks u = some t) :
    EndsOwnLoop { l with queues := t, ended := Function.update l.ended u true } ↔
      l.Unmerged (.loopEnds u) := by
  have hcount := (drops_disposeTasks hn).terminatesPending
  have hlinks : SameLinks l.queues t := sameLinks_foldlM_shutDownSource (disposeTasks_cases hn).2
  constructor
  · intro hm x hx
    by_contra hne
    have hpos : 0 < l.queues.terminatesPending x := Nat.pos_of_ne_zero hne
    have hjoined : l.joined x = true := joined_of_pending h hpos
    cases hm.ends x hjoined with
    | inl hterm =>
      have hfalse := not_terminated_of_pending h hp hpos
      exact absurd hterm (by simp [hfalse])
    | inr hpend =>
      have hzero := hpend.1
      simp only [hcount x, hx, or_true, ↓reduceIte, lt_irrefl] at hzero
  · intro hc
    refine ⟨hp.own, hp.stops, fun x hx => ?_⟩
    cases hp.ends x hx with
    | inl hterm => exact .inl hterm
    | inr hpend =>
      have hxu : x ≠ u := by
        rintro rfl
        rw [not_terminated_of_pending h hp hpend.1] at hu
        cases hu
      have hown : x ∉ l.queues.ownerOf u := by
        intro hx'
        have hzero := hc x hx'
        omega
      have hdisp := dispatcher_ne hF hxu hown
      refine .inr ⟨?_, ?_⟩
      · rw [hcount x, if_neg (by simp [hxu, hown])]
        exact hpend.1
      · simp only [hlinks.dispatcher]
        rw [Function.update_of_ne hdisp]
        exact hpend.2

theorem endsOwnLoop_join_iff (h : l.Inv) (hp : l.EndsOwnLoop) {now : TimePoint}
    (hn : l.next (.join x now) = some m) : m.EndsOwnLoop ↔ l.Unmerged (.join x now) := by
  simp only [next] at hn
  split_ifs at hn with hj hterm
  · cases hn
    apply iff_of_true hp
    intro hfalse
    rw [hj] at hfalse
    cases hfalse
  · have hran := count_ran_pos (hp.stops x hterm)
    have honce := h.once x
    rw [if_neg hj] at honce
    omega
  · obtain ⟨t, ht, rfl⟩ := Option.map_eq_some_iff.mp hn
    have hcount := (gains_registerTask ht).terminatesPending
    have hlinks := sameLinks_registerTask ht
    have hcond : l.Unmerged (.join x now) ↔ l.ended (l.queues.dispatcher x) = false := by
      simp [Unmerged, hj]
    rw [hcond]
    constructor
    · intro hm
      cases hm.ends x (Function.update_self ..) with
      | inl htrue => exact absurd htrue hterm
      | inr hpend =>
        rw [← hlinks.dispatcher x]
        exact hpend.2
    · intro halive
      refine ⟨hp.own, hp.stops, fun y hy => ?_⟩
      by_cases hyx : y = x
      · subst hyx
        refine .inr ⟨?_, ?_⟩
        · rw [hcount y]
          simp [terminates]
        · simp only [hlinks.dispatcher]
          exact halive
      · have hy : l.joined y = true := (Function.update_of_ne hyx ..).symm.trans hy
        cases hp.ends y hy with
        | inl htrue => exact .inl htrue
        | inr hpend =>
          refine .inr ⟨?_, ?_⟩
          · rw [hcount y, if_neg fun hand => hyx hand.1]
            exact hpend.1
          · simp only [hlinks.dispatcher]
            exact hpend.2

theorem inv_create (thread : ThreadId) : (create (C := C) thread).Inv := by
  refine ⟨⟨.empty, represents_create thread⟩, sourcesNamed_create thread, ?_, ?_, ?_⟩
  · intro x
    exact le_refl 0
  · intro x hx
    cases hx
  · intro x hx
    cases hx

theorem Inv.links (h : l.Inv) {t : MessageLoopTaskQueues (ThreadTask C)}
    (hl : SameLinks l.queues t) : ∃ F, Represents t F := by
  obtain ⟨F, hF⟩ := h.forest
  exact ⟨F, hF.sameLinks hl⟩

theorem inv_start (h : l.Inv) {t : MessageLoopTaskQueues (ThreadTask C)}
    (hn : l.queues.createLoop = some t) : Inv { l with queues := t } := by
  obtain ⟨F, hF⟩ := h.forest
  have hfresh : ¬ l.queues.Registered l.queues.taskQueueIdCounter :=
    fun hr => lt_irrefl _ (hF.fresh _ hr)
  refine ⟨represents_createLoop hF hn, sourcesNamed_createLoop h.named hn, ?_, ?_, h.ended⟩
  · intro x
    by_cases hx : x = l.queues.taskQueueIdCounter
    · have hnone : t.pendingTasks x = [] := by
        have hsource : t.source x = some (.create x) := by
          rw [source, createLoop_queueEntries hn, if_pos hx]
          rfl
        rw [pendingTasks_eq hsource, TaskSource.tasks_create]
      have honce := h.once x
      simp only [terminatesPending, hnone, List.countP_nil]
      omega
    · simp only [terminatesPending_congr (pendingTasks_createLoop hn hx)]
      exact h.once x
  · intro x hx
    have hreg := h.joined x hx
    have hne : x ≠ l.queues.taskQueueIdCounter := fun he => hfresh (he ▸ hreg)
    unfold Registered
    rw [createLoop_queueEntries hn, if_neg hne]
    exact hreg

theorem ordinary_of_byClient {c : QueueCall C} (hc : l.byClient c = true) :
    Ordinary (c.map (ThreadTask.other (C := C))) := by
  cases c with
  | createTaskQueue => cases hc
  | dispose q => cases hc
  | disposeTasks q => cases hc
  | getNextTaskToRun thread q time => cases hc
  | setWakeable q wakeable => cases hc
  | _ => exact trivial

theorem inv_call (h : l.Inv) {c : QueueCall C} (hc : l.byClient c = true)
    {t : MessageLoopTaskQueues (ThreadTask C)} (hn : l.queues.next (c.map .other) = some t) :
    Inv { l with queues := t } := by
  obtain ⟨F, hF⟩ := h.forest
  have hordinary := ordinary_of_byClient hc
  obtain ⟨F', -, hF'⟩ := represents_next hF (allowed_of_ordinary hordinary) hn
  refine ⟨⟨F', hF'⟩, sourcesNamed_next h.named hn, ?_, ?_, h.ended⟩
  · intro x
    simp only [terminatesPending_call hF h.named hc hn]
    exact h.once x
  · intro x hx
    exact (registered_next hordinary hn x).mpr (h.joined x hx)

theorem inv_join (h : l.Inv) (hp : l.EndsOwnLoop) {now : TimePoint}
    (hn : l.next (.join x now) = some m) : m.Inv := by
  simp only [next] at hn
  split_ifs at hn with hj hterm
  · cases hn
    exact h
  · have hran := count_ran_pos (hp.stops x hterm)
    have honce := h.once x
    rw [if_neg hj] at honce
    omega
  · obtain ⟨t, ht, rfl⟩ := Option.map_eq_some_iff.mp hn
    have hcount := (gains_registerTask ht).terminatesPending
    have hlinks := sameLinks_registerTask ht
    have hreg := (registerTask_cases ht).1
    have hnext : l.queues.next (.registerTask x (some .terminateCurrent) now .kUnspecified) =
        some t := ht
    refine ⟨h.links hlinks, sourcesNamed_next h.named hnext, ?_, ?_, h.ended⟩
    · intro y
      have honce := h.once y
      by_cases hyx : y = x
      · subst hyx
        rw [if_neg hj] at honce
        simp only [hcount y, Function.update_self, ↓reduceIte]
        split_ifs <;> omega
      · simp only [hcount y, hyx, false_and, ↓reduceIte, Function.update_of_ne, ne_eq,
          not_false_eq_true]
        exact honce
    · intro y hy
      rw [hlinks.registered]
      by_cases hyx : y = x
      · rw [hyx]
        exact hreg
      · have hy : l.joined y = true := (Function.update_of_ne hyx ..).symm.trans hy
        exact h.joined y hy

theorem inv_dispatch (h : l.Inv) {now : TimePoint} (hn : l.dispatch u now = some m) : m.Inv := by
  obtain ⟨F, hF⟩ := h.forest
  obtain ⟨t, hlinks, hnext, hstep⟩ := dispatch_cases hF h.named hn
  have hnamed := sourcesNamed_next h.named hnext
  have hjoined : ∀ x, l.joined x = true → t.Registered x :=
    fun x hx => (hlinks.registered x).mpr (h.joined x hx)
  obtain ⟨rfl, hs, -⟩ | ⟨top, -, -, -, -, hpop, rfl⟩ := hstep
  · refine ⟨h.links hlinks, hnamed, fun x => ?_, hjoined, h.ended⟩
    simp only [terminatesPending_congr (pendingTasks_congr (hs x))]
    exact h.once x
  · have hcount := hpop.terminatesPending
    split_ifs with hterm
    · refine ⟨h.links hlinks, hnamed, fun x => ?_, hjoined, fun x hx => ?_⟩
      · have honce := h.once x
        rw [hcount x] at honce
        simp only [terminate_ran, terminate_queues, terminate_joined, List.map_append,
          List.count_append, List.map_cons, List.map_nil, List.count_singleton]
        by_cases hx : x = top.taskQueueId
        · simp only [hx, hterm, and_self, ↓reduceIte, beq_self_eq_true] at honce ⊢
          omega
        · have hne : (top.taskQueueId == x) = false := by simpa using Ne.symm hx
          simp only [hx, false_and, hne, ↓reduceIte, Nat.add_zero, Bool.false_eq_true] at honce ⊢
          exact honce
      · rw [terminate_terminated]
        by_cases hxu : x = u
        · subst hxu
          exact Function.update_self ..
        · rw [Function.update_of_ne hxu]
          exact h.ended x hx
    · refine ⟨h.links hlinks, hnamed, fun x => ?_, hjoined, h.ended⟩
      have honce := h.once x
      rw [hcount x] at honce
      simp only at honce ⊢
      omega

theorem inv_loopEnds (h : l.Inv) (hu : l.terminated u = true)
    {t : MessageLoopTaskQueues (ThreadTask C)} (hn : l.queues.disposeTasks u = some t) :
    Inv { l with queues := t, ended := Function.update l.ended u true } := by
  have hcount := (drops_disposeTasks hn).terminatesPending
  have hlinks : SameLinks l.queues t := sameLinks_foldlM_shutDownSource (disposeTasks_cases hn).2
  have hnext : l.queues.next (.disposeTasks u) = some t := hn
  refine ⟨h.links hlinks, sourcesNamed_next h.named hnext, ?_, ?_, ?_⟩
  · intro x
    have honce := h.once x
    simp only [hcount x]
    split_ifs at honce ⊢ <;> omega
  · intro x hx
    exact (hlinks.registered x).mpr (h.joined x hx)
  · intro x hx
    by_cases hxu : x = u
    · subst hxu
      exact hu
    · have hx : l.ended x = true := (Function.update_of_ne hxu ..).symm.trans hx
      exact h.ended x hx

theorem inv_next {e : ThreadEvent C} (h : l.Inv) (hp : l.EndsOwnLoop) (hn : l.next e = some m) :
    m.Inv := by
  cases e with
  | start =>
    obtain ⟨t, ht, rfl⟩ := Option.map_eq_some_iff.mp hn
    exact inv_start h ht
  | call c =>
    simp only [next] at hn
    split_ifs at hn with hc
    obtain ⟨t, ht, rfl⟩ := Option.map_eq_some_iff.mp hn
    exact inv_call h hc ht
  | join x now => exact inv_join h hp hn
  | dispatch u now =>
    simp only [next] at hn
    split_ifs at hn with hu
    exact inv_dispatch h hn
  | loopEnds u =>
    simp only [next] at hn
    split_ifs at hn with hu
    rw [Bool.and_eq_true] at hu
    obtain ⟨t, ht, rfl⟩ := Option.map_eq_some_iff.mp hn
    exact inv_loopEnds h hu.1 ht

theorem endsOwnLoop_next_iff {e : ThreadEvent C} (h : l.Inv) (hp : l.EndsOwnLoop)
    (hn : l.next e = some m) : m.EndsOwnLoop ↔ l.Unmerged e := by
  obtain ⟨F, hF⟩ := h.forest
  cases e with
  | start =>
    obtain ⟨t, ht, rfl⟩ := Option.map_eq_some_iff.mp hn
    exact iff_of_true (endsOwnLoop_start h hF hp ht) trivial
  | call c =>
    simp only [next] at hn
    split_ifs at hn with hc
    obtain ⟨t, ht, rfl⟩ := Option.map_eq_some_iff.mp hn
    exact iff_of_true (endsOwnLoop_call h hF hp hc ht) trivial
  | join x now => exact endsOwnLoop_join_iff h hp hn
  | dispatch u now =>
    simp only [next] at hn
    split_ifs at hn
    exact endsOwnLoop_dispatch_iff h hF hp hn
  | loopEnds u =>
    simp only [next] at hn
    split_ifs at hn with hu
    rw [Bool.and_eq_true] at hu
    obtain ⟨t, ht, rfl⟩ := Option.map_eq_some_iff.mp hn
    exact endsOwnLoop_loopEnds_iff h hF hp hu.1 ht

theorem endsOwnLoop_create (thread : ThreadId) : (create (C := C) thread).EndsOwnLoop := by
  constructor
  · intro x u hx
    cases hx
  · intro u hu
    cases hu
  · intro x hx
    cases hx

theorem join_ends_own_loop_iff (thread : ThreadId) (es : List (ThreadEvent C))
    (hr : (run next (create thread) es).isSome) :
    Always next EndsOwnLoop (create thread) es ↔ Meets next Unmerged (create thread) es := by
  apply always_iff_meets (inv_create thread) (endsOwnLoop_create thread) _ _ hr
  · intro l e m hl hn hp _
    exact inv_next hl hp hn
  · intro l e m hl hn hp
    exact endsOwnLoop_next_iff hl hp hn

def joinSubsumed : List (ThreadEvent Unit) :=
  [.start, .start, .call (.merge 0 1), .join 1 ⟨3⟩, .dispatch 0 ⟨5⟩]

theorem join_ends_own_loop_iff_joinSubsumed :
    Always next EndsOwnLoop (create 0) joinSubsumed ↔
      Meets next Unmerged (create 0) joinSubsumed :=
  join_ends_own_loop_iff 0 joinSubsumed (by decide)

theorem joinSubsumed_terminates_owner :
    ∃ l, run next (create 0) joinSubsumed = some l ∧ l.ran = [(1, 0)] ∧ l.terminated 0 = true ∧
      l.terminated 1 = false ∧ l.joined 1 = true ∧ l.queues.terminatesPending 1 = 0 ∧
      ¬ l.EndsOwnLoop := by
  refine ⟨_, rfl, rfl, rfl, rfl, rfl, rfl, ?_⟩
  intro h
  have hown := h.own 1 0 List.mem_cons_self
  cases hown

end RunningThreads

end EnvironmentCheck
