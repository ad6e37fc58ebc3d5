import EnvironmentCheck.TaskLedger
import EnvironmentCheck.TaskRunnerChecker

namespace EnvironmentCheck

open MessageLoopTaskQueues Transition

variable {C : Type}

/-- By what its functions read of its loop. -/
structure TaskRunner where
  queueId : TaskQueueId
  terminated : Bool

namespace TaskRunner

def postTaskForTime (runner : TaskRunner) (s : MessageLoopTaskQueues C) (task : Closure C)
    (targetTime : TimePoint) : Option (MessageLoopTaskQueues C) :=
  if runner.terminated then some s
  else s.registerTask runner.queueId task targetTime .kUnspecified

def postTask (runner : TaskRunner) (s : MessageLoopTaskQueues C) (task : Closure C)
    (now : TimePoint) : Option (MessageLoopTaskQueues C) :=
  runner.postTaskForTime s task now

def postDelayedTask (runner : TaskRunner) (s : MessageLoopTaskQueues C) (task : Closure C)
    (now : TimePoint) (delay : TimeDelta) : Option (MessageLoopTaskQueues C) :=
  runner.postTaskForTime s task (now + delay)

/-- `none` for the queue of a thread without a loop. -/
def runsTasksOnCurrentThread (runner : TaskRunner) (s : MessageLoopTaskQueues C) :
    Option TaskQueueId → Option Bool
  | none => some false
  | some currentQueueId => TaskRunnerChecker.runsOnTheSameThread s currentQueueId runner.queueId

/-- True where the task has run within the call. -/
def runNowOrPostTask (runner : TaskRunner) (s : MessageLoopTaskQueues C)
    (currentQueueId : Option TaskQueueId) (task : Closure C) (now : TimePoint) :
    Option (Bool × MessageLoopTaskQueues C) := do
  if ← runner.runsTasksOnCurrentThread s currentQueueId then return (true, s)
  else return (false, ← runner.postTask s task now)

end TaskRunner

namespace TaskLedger

/-- The ticket of the task that is registered next, on this queue. -/
def nextTicket (l : TaskLedger C) (q : TaskQueueId) : Ticket := (q, l.issued.length)

def stamped (l : TaskLedger C) (q : TaskQueueId) (task : C) : Closure (Ticket × C) :=
  some (l.nextTicket q, task)

/-- Whatever runs from here, the task with this ticket is returned only so. -/
def ReturnedOnly (m : TaskLedger C) (tk : Ticket)
    (p : MessageLoopTaskQueues (Ticket × C) → TaskQueueId → TimePoint → Prop) : Prop :=
  ∀ es n, Meets TaskLedger.next TaskLedger.Balanced m es → run TaskLedger.next m es = some n →
    ∀ thread q time, tk ∈ returns n.queues (.getNextTaskToRun (C := C) thread q time) →
      p n.queues q time

end TaskLedger

namespace MessageLoopTaskQueues

/-- The thread of the loop on `q` runs the tasks that are registered on `x`. -/
def Dispatches (s : MessageLoopTaskQueues C) (q x : TaskQueueId) : Prop :=
  s.subsumedBy q = none ∧ (q = x ∨ x ∈ s.ownerOf q)

end MessageLoopTaskQueues

section Returned

variable {l m : TaskLedger C} {thread thread₀ : ThreadId} {q : TaskQueueId} {time : TimePoint}
  {tk : Ticket}

theorem mem_returns {s : MessageLoopTaskQueues (Ticket × C)}
    (h : tk ∈ returns s (.getNextTaskToRun (C := C) thread q time)) :
    ∃ task t, s.getNextTaskToRun thread q time = some (some (tk, task), t) := by
  simp only [returns] at h
  split at h
  · next tk' task t hg =>
    rw [List.mem_singleton] at h
    subst h
    exact ⟨task, t, hg⟩
  · cases h

structure Taken (s : MessageLoopTaskQueues (Ticket × C)) (tk : Ticket) (q : TaskQueueId)
    (time : TimePoint) (v : TaskQueueId × DelayedTask (Ticket × C)) : Prop where
  ticket : ticket v.2 = some tk
  pending : v.2 ∈ s.pendingTasks v.1
  dispatches : s.Dispatches q v.1
  due : v.2.targetTime ≤ time

theorem taken_of_returned {s : MessageLoopTaskQueues (Ticket × C)} {F : OwnerForest TaskQueueId}
    (hF : Represents s F) (hid : s.SourcesNamed)
    (h : tk ∈ returns s (.getNextTaskToRun (C := C) thread q time)) : ∃ v, Taken s tk q time v := by
  obtain ⟨task, t, hg⟩ := mem_returns h
  obtain ⟨hnone, -⟩ | ⟨top, hp, -, hdue, htask, hmem, hpop⟩ := getNextTaskToRun_pops hF hid hg
  · cases hnone
  · refine ⟨(top.taskQueueId, top.task), ?_, ?_, ⟨?_, ?_⟩, hdue⟩
    · rw [ticket, ← htask]
      rfl
    · exact hpop.perm.mem_iff.mpr List.mem_cons_self
    · exact subsumedBy_eq_none_of_pending hF.linked hp
    · exact hmem.imp_left Eq.symm

theorem next_ledger {c : QueueCall C} {t : MessageLoopTaskQueues (Ticket × C)}
    (h : l.queues.next (c.stamp l.issued.length) = some t) :
    ∃ m, l.next c = some m ∧ m.queues = t ∧ m.issued = l.issued ++ issues l.issued.length c :=
  ⟨_, Option.map_eq_some_iff.mpr ⟨t, h, rfl⟩, rfl, rfl⟩

theorem reachable_sound (hr : Reachable TaskLedger.next TaskLedger.Balanced
    (TaskLedger.create (C := C) thread₀) l) :
    (∃ F, Represents l.queues F) ∧ l.queues.SoundSources ∧ l.Conserves := by
  have hq := TaskLedger.reachable_queues hr
  exact ⟨represents_reachable (fun _ _ hc => hc.1) hq, soundSources_reachable (fun _ _ hc => hc.2) hq,
    TaskLedger.reachable_conserves hr⟩

theorem returnedOnly_dispatches (hr : Reachable TaskLedger.next TaskLedger.Balanced
    (TaskLedger.create (C := C) thread₀) m) (tk : Ticket) :
    m.ReturnedOnly tk fun s q _ => s.Dispatches q tk.1 := by
  intro es n hm hn thread q time htk
  obtain ⟨⟨F, hF⟩, hs, hconserves⟩ := reachable_sound (hr.extend hm hn)
  obtain ⟨v, hv⟩ := taken_of_returned hF hs.taskQueueId htk
  have hhome : tk.1 = v.1 := by
    apply hconserves.home
    rw [pendingTickets_eq, List.mem_filterMap]
    exact ⟨v.2, hv.pending, hv.ticket⟩
  rw [hhome]
  exact hv.dispatches

end Returned

namespace TaskRunner

variable {l m : TaskLedger C} {runner : TaskRunner} {thread₀ : ThreadId} {currentQueueId : TaskQueueId}
  {now : TimePoint}

/-- What posting does to the ledger of a runner whose loop is not terminated. -/
theorem postTaskForTime_ledger (task : C) (targetTime : TimePoint)
    (hr : Reachable TaskLedger.next TaskLedger.Balanced (TaskLedger.create (C := C) thread₀) l)
    (hlive : runner.terminated = false) (hq : l.queues.Registered runner.queueId) :
    ∃ m, l.next (.registerTask runner.queueId (some task) targetTime .kUnspecified) = some m ∧
      runner.postTaskForTime l.queues (l.stamped runner.queueId task) targetTime = some m.queues ∧
      Reachable TaskLedger.next TaskLedger.Balanced (TaskLedger.create (C := C) thread₀) m ∧
      m.issued = l.issued ++ [l.nextTicket runner.queueId] ∧
      Gains l.queues m.queues runner.queueId
        ⟨orderStamp l.queues.order, l.stamped runner.queueId task, targetTime, .kUnspecified⟩ := by
  obtain ⟨⟨F, hF⟩, hs, -⟩ := reachable_sound hr
  obtain ⟨t, ht⟩ := Option.isSome_iff_exists.mp (registerTask_isSome hF hs.taskQueueId hq
    (l.stamped runner.queueId task) targetTime .kUnspecified)
  obtain ⟨m, hstep, rfl, hissued⟩ :=
    next_ledger (c := .registerTask runner.queueId (some task) targetTime .kUnspecified) ht
  have hb : l.Balanced (.registerTask runner.queueId (some task) targetTime .kUnspecified) :=
    ⟨trivial, trivial⟩
  refine ⟨m, hstep, ?_, hr.step hb hstep, hissued, gains_registerTask ht⟩
  rw [postTaskForTime, hlive]
  exact ht

/-- A thread whose loop is not the one that dispatches, but is taken for it. -/
def Misplaced (s : MessageLoopTaskQueues C) (currentQueueId queueId : TaskQueueId) : Prop :=
  s.subsumedBy currentQueueId ≠ none ∧
    (currentQueueId = queueId ∨ s.subsumedBy currentQueueId = some queueId)

structure StaysOnDispatcher (l : TaskLedger C) (currentQueueId : TaskQueueId) (runner : TaskRunner)
    (task : C) (now : TimePoint) : Prop where
  returns : (runner.runNowOrPostTask l.queues (some currentQueueId)
    (l.stamped runner.queueId task) now).isSome
  inline : ∀ t, runner.runNowOrPostTask l.queues (some currentQueueId)
      (l.stamped runner.queueId task) now = some (true, t) →
    l.queues.Dispatches currentQueueId runner.queueId
  posted : runner.terminated = false → ∀ t, runner.runNowOrPostTask l.queues (some currentQueueId)
      (l.stamped runner.queueId task) now = some (false, t) →
    ∃ m, l.next (.registerTask runner.queueId (some task) now .kUnspecified) = some m ∧ m.queues = t ∧
      l.nextTicket runner.queueId ∈ pendingTickets t runner.queueId ∧
      m.ReturnedOnly (l.nextTicket runner.queueId) fun s q _ => s.Dispatches q runner.queueId

theorem runNowOrPostTask_eq {b : Bool} {s : MessageLoopTaskQueues C} (closure : Closure C)
    (now : TimePoint)
    (h : TaskRunnerChecker.runsOnTheSameThread s currentQueueId runner.queueId = some b) :
    runner.runNowOrPostTask s (some currentQueueId) closure now =
      if b then some (true, s) else (runner.postTask s closure now).map (false, ·) := by
  rw [runNowOrPostTask, runsTasksOnCurrentThread, h]
  cases b with
  | true => rfl
  | false => cases runner.postTask s closure now <;> simp

theorem pendingTickets_gains {s t : MessageLoopTaskQueues (Ticket × C)} {q : TaskQueueId}
    {u : DelayedTask (Ticket × C)} {tk : Ticket} (h : Gains s t q u) (hu : ticket u = some tk) :
    tk ∈ pendingTickets t q := by
  rw [pendingTickets_eq, List.mem_filterMap]
  exact ⟨u, h.perm.mem_iff.mpr List.mem_cons_self, hu⟩

theorem dispatches_of_related {s : MessageLoopTaskQueues C} {F : OwnerForest TaskQueueId}
    {q x : TaskQueueId} (hF : Represents s F)
    (hrelated : q = x ∨ s.subsumedBy x = some q ∨ s.subsumedBy q = some x)
    (hplaced : ¬ Misplaced s q x) : s.Dispatches q x := by
  obtain heq | howns | howned := hrelated
  · refine ⟨?_, .inl heq⟩
    by_contra hsub
    exact hplaced ⟨hsub, .inl heq⟩
  · rw [hF.owner] at howns
    rw [Dispatches, hF.owner, hF.ownerOf]
    exact ⟨F.owner_root howns, .inr howns⟩
  · exact absurd ⟨by rw [howned]; exact Option.some_ne_none _, .inr howned⟩ hplaced

theorem staysOnDispatcher_inline {task : C} {now : TimePoint}
    (hsame : TaskRunnerChecker.runsOnTheSameThread l.queues currentQueueId runner.queueId = some true)
    (hdispatches : l.queues.Dispatches currentQueueId runner.queueId) :
    StaysOnDispatcher l currentQueueId runner task now := by
  have hrun := runNowOrPostTask_eq (l.stamped runner.queueId task) now hsame
  refine ⟨by rw [hrun]; rfl, fun t _ => hdispatches, fun _ t ht => ?_⟩
  rw [hrun] at ht
  cases ht

theorem staysOnDispatcher_posted {task : C} {now : TimePoint}
    (hr : Reachable TaskLedger.next TaskLedger.Balanced (TaskLedger.create (C := C) thread₀) l)
    (hq : l.queues.Registered runner.queueId)
    (hsame : TaskRunnerChecker.runsOnTheSameThread l.queues currentQueueId runner.queueId = some false) :
    StaysOnDispatcher l currentQueueId runner task now := by
  have hrun := runNowOrPostTask_eq (l.stamped runner.queueId task) now hsame
  refine ⟨?_, fun t ht => ?_, fun hlive t ht => ?_⟩
  · rw [hrun]
    cases hterm : runner.terminated with
    | true => simp [postTask, postTaskForTime, hterm]
    | false =>
      obtain ⟨m, -, hpost, -⟩ := postTaskForTime_ledger task now hr hterm hq
      simp [postTask, hpost]
  · rw [hrun] at ht
    simp at ht
  · obtain ⟨m, hstep, hpost, hm, -, hgains⟩ := postTaskForTime_ledger task now hr hlive hq
    rw [hrun, postTask, hpost] at ht
    simp at ht
    subst ht
    exact ⟨m, hstep, rfl, pendingTickets_gains hgains rfl, returnedOnly_dispatches hm _⟩

theorem runNowOrPostTask_iff (currentQueueId : TaskQueueId) (runner : TaskRunner)
    (hr : Reachable TaskLedger.next TaskLedger.Balanced (TaskLedger.create (C := C) thread₀) l)
    (hcurrent : l.queues.Registered currentQueueId) (hq : l.queues.Registered runner.queueId)
    (task : C) (now : TimePoint) :
    StaysOnDispatcher l currentQueueId runner task now ↔
      ¬ Misplaced l.queues currentQueueId runner.queueId := by
  obtain ⟨⟨F, hF⟩, -, -⟩ := reachable_sound hr
  have hsame := TaskRunnerChecker.runsOnTheSameThread_eq hF hcurrent hq
  constructor
  · rintro h ⟨hsub, hmis⟩
    have hrelated : currentQueueId = runner.queueId ∨
        l.queues.subsumedBy runner.queueId = some currentQueueId ∨
          l.queues.subsumedBy currentQueueId = some runner.queueId := hmis.imp_right .inr
    rw [decide_eq_true hrelated] at hsame
    exact hsub (h.inline _ (runNowOrPostTask_eq _ _ hsame)).1
  · intro hplaced
    by_cases hrelated : currentQueueId = runner.queueId ∨
        l.queues.subsumedBy runner.queueId = some currentQueueId ∨
          l.queues.subsumedBy currentQueueId = some runner.queueId
    · rw [decide_eq_true hrelated] at hsame
      exact staysOnDispatcher_inline hsame (dispatches_of_related hF hrelated hplaced)
    · rw [decide_eq_false hrelated] at hsame
      exact staysOnDispatcher_posted hr hq hsame

def nestedRun : List (QueueCall Unit) := [.createTaskQueue, .createTaskQueue, .merge 0 1]

theorem runNowOrPostTask_iff_nestedRun : ∃ l, run TaskLedger.next (.create 0) nestedRun = some l ∧
    (StaysOnDispatcher l 0 ⟨1, false⟩ () ⟨5⟩ ↔ ¬ Misplaced l.queues 0 1) := by
  have hm : Meets TaskLedger.next TaskLedger.Balanced (.create 0) nestedRun := by decide
  have hl : Reachable TaskLedger.next TaskLedger.Balanced (.create 0)
      ((run TaskLedger.next (.create 0) nestedRun).get rfl) := ⟨nestedRun, hm, rfl⟩
  exact ⟨_, rfl, runNowOrPostTask_iff 0 ⟨1, false⟩ hl rfl rfl () ⟨5⟩⟩

theorem nestedRun_misplaced : ∃ l, run TaskLedger.next (.create 0) nestedRun = some l ∧
    Meets TaskLedger.next TaskLedger.Balanced (.create 0) nestedRun ∧
      l.queues.subsumedBy 1 = some 0 ∧ ¬ StaysOnDispatcher l 1 ⟨0, false⟩ () ⟨5⟩ := by
  refine ⟨_, rfl, by decide, rfl, fun h => ?_⟩
  obtain ⟨hroot, -⟩ := h.inline _ rfl
  cases hroot

def NeverEarly (l : TaskLedger C) (runner : TaskRunner) (task : C) (now : TimePoint)
    (delay : TimeDelta) : Prop :=
  runner.terminated = false → ∀ t, runner.postDelayedTask l.queues (l.stamped runner.queueId task)
      now delay = some t →
    ∃ m, l.next (.registerTask runner.queueId (some task) (now + delay) .kUnspecified) = some m ∧
      m.queues = t ∧ m.ReturnedOnly (l.nextTicket runner.queueId) fun _ _ time =>
        now.ticks.toInt + delay.delta.toInt ≤ time.ticks.toInt

/-- Tickets that are issued from here on are others. -/
structure Targets (l : TaskLedger C) (tk : Ticket) (time : TimePoint) : Prop where
  issued : tk.2 < l.issued.length
  target : ∀ x, ∀ u ∈ l.queues.pendingTasks x, ticket u = some tk → u.targetTime = time

theorem targets_next {tk : Ticket} {time : TimePoint} {c : QueueCall C} {F : OwnerForest TaskQueueId}
    (hF : Represents l.queues F) (hid : l.queues.SourcesNamed) (h : Targets l tk time)
    (hn : l.next c = some m) : Targets m tk time := by
  obtain ⟨t, ht, rfl⟩ := Option.map_eq_some_iff.mp hn
  constructor
  · rw [List.length_append]
    exact h.issued.trans_le (Nat.le_add_right _ _)
  · intro x u hu htk
    obtain hold | hnew := mem_pendingTasks_next hF hid ht hu
    · exact h.target x u hold htk
    · -- the ticket of a task that is registered now counts the tickets issued before it
      exfalso
      have hissued := h.issued
      cases c with
      | registerTask q body time' grade =>
        rw [QueueCall.stamp, QueueCall.registerTask.injEq] at hnew
        cases body with
        | none => simp [ticket, ← hnew.2.1] at htk
        | some body =>
          rw [ticket, ← hnew.2.1] at htk
          obtain rfl := Option.some.inj htk
          exact lt_irrefl _ hissued
      | _ => cases hnew

theorem targets_post (hl : l.Conserves) {q : TaskQueueId} {u : DelayedTask (Ticket × C)}
    (hu : ticket u = some (l.nextTicket q)) (hissued : m.issued = l.issued ++ [l.nextTicket q])
    (hgains : Gains l.queues m.queues q u) : Targets m (l.nextTicket q) u.targetTime := by
  have hfresh : ∀ x, ∀ v ∈ l.queues.pendingTasks x, ticket v ≠ some (l.nextTicket q) := by
    intro x v hv htk
    have hmem : l.nextTicket q ∈ pendingTickets l.queues x := List.mem_filterMap.mpr ⟨v, hv, htk⟩
    have hhome := hl.home x _ hmem
    rw [← hhome] at hmem
    have hcount := hl.total (l.nextTicket q)
    have hpos := List.count_pos_iff.mpr hmem
    have hold : l.nextTicket q ∈ l.issued := List.count_pos_iff.mp (by omega)
    exact lt_irrefl _ (hl.fresh _ hold)
  constructor
  · rw [hissued, List.length_append]
    exact Nat.lt_succ_self _
  · intro x v hv htk
    by_cases hx : x = q
    · subst hx
      obtain rfl | hold := List.mem_cons.mp (hgains.perm.mem_iff.mp hv)
      · rfl
      · exact absurd htk (hfresh _ _ hold)
    · rw [hgains.others x hx] at hv
      exact absurd htk (hfresh x v hv)

theorem returnedOnly_due {tk : Ticket} {time : TimePoint}
    (hr : Reachable TaskLedger.next TaskLedger.Balanced (TaskLedger.create (C := C) thread₀) m)
    (h : Targets m tk time) : m.ReturnedOnly tk fun _ _ fromTime => time ≤ fromTime := by
  intro es n hm hn thread q fromTime htk
  have hn' : Reachable TaskLedger.next TaskLedger.Balanced m n := ⟨es, hm, hn⟩
  have htargets : Targets n tk time := by
    refine Reachable.invariant (p := fun k => Targets k tk time) h ?_ hn'
    rintro k c k' ⟨fs, hfs, hk⟩ hkt - hnext
    obtain ⟨⟨F, hF⟩, hs, -⟩ := reachable_sound (hr.extend hfs hk)
    exact targets_next hF hs.taskQueueId hkt hnext
  obtain ⟨⟨F, hF⟩, hs, -⟩ := reachable_sound (hr.extend hm hn)
  obtain ⟨v, hv⟩ := taken_of_returned hF hs.taskQueueId htk
  rw [← htargets.target v.1 v.2 hv.pending hv.ticket]
  exact hv.due

/-- The dispatching queue hands out the task, or one of those before it. -/
theorem returned_or_nearer {tk : Ticket} {o : TaskQueueId} {u : DelayedTask (Ticket × C)}
    (hr : Reachable TaskLedger.next TaskLedger.Balanced (TaskLedger.create (C := C) thread₀) m)
    (hroot : m.queues.subsumedBy o = none) (ho : m.queues.Registered o)
    (hu : u ∈ m.queues.visibleTasks o) (htk : ticket u = some tk) (thread : ThreadId) :
    tk ∈ returns m.queues (.getNextTaskToRun (C := C) thread o .max) ∨
      ∃ m', m.next (.getNextTaskToRun thread o .max) = some m' ∧ SameLinks m.queues m'.queues ∧
        u ∈ m'.queues.visibleTasks o ∧
        (m.queues.visibleTasks o).length = (m'.queues.visibleTasks o).length + 1 := by
  obtain ⟨⟨F, hF⟩, hs, -⟩ := reachable_sound hr
  obtain ⟨⟨b, t⟩, hg⟩ := Option.isSome_iff_exists.mp
    (getNextTaskToRun_isSome hF.linked hs.taskQueueId ho thread .max)
  have hlinks := sameLinks_getNextTaskToRun hg
  have hpending : m.queues.hasPendingTasksUnlocked o = some true := by
    obtain ⟨v, hv, -⟩ := mem_visibleTasks.mp hu
    exact (hasPendingTasksUnlocked_iff hF.linked hs ho).mpr ⟨hroot, v, hv⟩
  obtain ⟨-, -, hlate⟩ | ⟨top, hp, htop, -, hb, hsource⟩ := source_getNextTaskToRun hg
  · obtain ⟨top, -, hlt⟩ := hlate hpending
    exact absurd (TimePoint.le_max _) (not_le.mpr hlt)
  · obtain ⟨top', src, htop', hsrc, hlead, hmem⟩ :=
      peekNextTaskUnlocked_some hF.linked hs.taskQueueId ho hp
    obtain rfl : top = top' := Option.some.inj (htop.symm.trans htop')
    have hperm := visibleTasks_popTask (hF.nodup_group o) hmem hlead hsrc (hlinks.ownerOf o) hsource
    obtain hfirst | hlater := List.mem_cons.mp (hperm.mem_iff.mp hu)
    · left
      rw [hfirst, ticket, ← hb] at htk
      obtain ⟨⟨tk', body⟩, hbody, rfl⟩ := Option.map_eq_some_iff.mp htk
      rw [hbody] at hg
      simp [returns, hg]
    · right
      obtain ⟨m', hnext, rfl, -⟩ := next_ledger (c := .getNextTaskToRun thread o .max)
        (Option.map_eq_some_iff.mpr ⟨(b, t), hg, rfl⟩)
      exact ⟨m', hnext, hlinks, hlater, hperm.length_eq.trans (List.length_cons ..)⟩

theorem returned_eventually {tk : Ticket} {o : TaskQueueId} {u : DelayedTask (Ticket × C)} {n : ℕ}
    (hr : Reachable TaskLedger.next TaskLedger.Balanced (TaskLedger.create (C := C) thread₀) m)
    (hroot : m.queues.subsumedBy o = none) (ho : m.queues.Registered o)
    (hu : u ∈ m.queues.visibleTasks o) (htk : ticket u = some tk)
    (hn : (m.queues.visibleTasks o).length = n) (thread : ThreadId) :
    ∃ es k, Meets TaskLedger.next TaskLedger.Balanced m es ∧ run TaskLedger.next m es = some k ∧
      tk ∈ returns k.queues (.getNextTaskToRun (C := C) thread o .max) := by
  induction n generalizing m with
  | zero =>
    rw [List.eq_nil_of_length_eq_zero hn] at hu
    cases hu
  | succ n ih =>
    obtain hnow | ⟨m', hnext, hlinks, hlater, hlen⟩ := returned_or_nearer hr hroot ho hu htk thread
    · exact ⟨[], m, trivial, rfl, hnow⟩
    · have hbalanced : m.Balanced (.getNextTaskToRun thread o .max) := ⟨trivial, trivial⟩
      obtain ⟨es, k, hes, hk, hret⟩ := ih (hr.step hbalanced hnext)
        ((hlinks.subsumedBy o).trans hroot) ((hlinks.registered o).mpr ho) hlater (by omega)
      refine ⟨.getNextTaskToRun thread o .max :: es, k, ⟨hbalanced, fun s hs => ?_⟩, ?_, hret⟩
      · obtain rfl := Option.some.inj (hnext.symm.trans hs)
        exact hes
      · rw [run_cons_some hnext, hk]

theorem mem_visibleTasks_dispatcher {s : MessageLoopTaskQueues C} {F : OwnerForest TaskQueueId}
    (hF : Represents s F) {u : DelayedTask C} {q : TaskQueueId} (hu : u ∈ s.pendingTasks q)
    (hprimary : u.taskSourceGrade.heap = .primary) : u ∈ s.visibleTasks (s.dispatcher q) := by
  rw [mem_visibleTasks]
  refine ⟨(q, u), ⟨?_, ?_⟩, rfl⟩
  · rw [hF.ownerOf, TaskRunnerChecker.dispatcher_eq hF, OwnerForest.root, OwnerForest.Owns]
    cases F.owner q with
    | none => exact .inl rfl
    | some o => exact .inr rfl
  · cases hsrc : s.source q with
    | none =>
      rw [pendingTasks_none hsrc] at hu
      cases hu
    | some src =>
      rw [pendingTasks_eq hsrc] at hu
      refine ⟨src, rfl, List.mem_append_left _ ?_⟩
      obtain hp | hs := List.mem_append.mp hu
      · exact hp
      · rw [src.secondary_grade u hs] at hprimary
        cases hprimary

theorem registered_dispatcher {s : MessageLoopTaskQueues C} {F : OwnerForest TaskQueueId}
    (hF : Represents s F) {u : DelayedTask C} {q : TaskQueueId} (hu : u ∈ s.pendingTasks q) :
    s.Registered (s.dispatcher q) := by
  have hq : s.Registered q := by
    by_contra hq
    rw [pendingTasks, heap_of_not_registered hq, heap_of_not_registered hq] at hu
    cases hu
  rw [TaskRunnerChecker.dispatcher_eq hF]
  exact (hF.live _).mp (F.root_live ((hF.live q).mpr hq))

theorem toInt_addDelay {delay : TimeDelta} (hnow : 0 ≤ now.ticks.toInt)
    (hdelay : 0 ≤ delay.delta.toInt) :
    (now + delay).ticks.toInt =
      if now.ticks.toInt + delay.delta.toInt < 2 ^ 63 then now.ticks.toInt + delay.delta.toInt
      else now.ticks.toInt + delay.delta.toInt - 2 ^ 64 := by
  have hn := now.ticks.toInt_lt
  have hd := delay.delta.toInt_lt
  change (now.ticks + delay.delta).toInt = _
  rw [Int64.toInt_add, Int.bmod_def]
  split_ifs <;> omega

theorem postDelayedTask_iff (runner : TaskRunner)
    (hr : Reachable TaskLedger.next TaskLedger.Balanced (TaskLedger.create (C := C) thread₀) l)
    (hq : l.queues.Registered runner.queueId) (task : C) (now : TimePoint) (delay : TimeDelta)
    (hnow : 0 ≤ now.ticks.toInt) (hdelay : 0 ≤ delay.delta.toInt) :
    NeverEarly l runner task now delay ↔
      runner.terminated = true ∨ now.ticks.toInt + delay.delta.toInt < 2 ^ 63 := by
  have hsum := toInt_addDelay hnow hdelay
  cases hlive : runner.terminated with
  | true => simp [NeverEarly, hlive]
  | false =>
    rw [or_iff_right Bool.false_ne_true]
    obtain ⟨m, hstep, hpost, hm, hissued, hgains⟩ := postTaskForTime_ledger task (now + delay)
      hr hlive hq
    obtain ⟨-, -, hconserves⟩ := reachable_sound hr
    constructor
    · intro h
      obtain ⟨m', hstep', -, honly⟩ := h hlive _ hpost
      obtain rfl := Option.some.inj (hstep.symm.trans hstep')
      obtain ⟨⟨F, hF⟩, -, -⟩ := reachable_sound hm
      have hpending := hgains.perm.mem_iff.mpr List.mem_cons_self
      have hroot : m.queues.subsumedBy (m.queues.dispatcher runner.queueId) = none := by
        rw [hF.owner, TaskRunnerChecker.dispatcher_eq hF]
        exact F.owner_root_eq_none _
      obtain ⟨es, k, hes, hk, hret⟩ := returned_eventually hm hroot (registered_dispatcher hF hpending)
        (mem_visibleTasks_dispatcher hF hpending rfl) rfl rfl 0
      have hbound := (honly es k hes hk 0 _ .max hret).trans TimePoint.max.ticks.toInt_le
      exact Int.lt_of_le_of_lt hbound (by decide)
    · intro hlt
      rw [if_pos hlt] at hsum
      intro _ t ht
      obtain rfl := Option.some.inj (hpost.symm.trans ht)
      refine ⟨m, hstep, rfl, ?_⟩
      intro es n hes hn thread q time hret
      have hdue := returnedOnly_due hm (targets_post hconserves rfl hissued hgains) es n hes hn
        thread q time hret
      rw [← hsum]
      exact hdue

theorem postDelayedTask_iff_single : ∃ l : TaskLedger Unit,
    run TaskLedger.next (.create 0) [.createTaskQueue] = some l ∧
      (NeverEarly l ⟨0, false⟩ () ⟨5⟩ ⟨7⟩ ↔ false = true ∨ (5 : ℤ) + 7 < 2 ^ 63) := by
  have hl : Reachable TaskLedger.next TaskLedger.Balanced (.create 0)
      ((run TaskLedger.next (.create 0) [.createTaskQueue (C := Unit)]).get rfl) :=
    ⟨[.createTaskQueue], by decide, rfl⟩
  exact ⟨_, rfl, postDelayedTask_iff ⟨0, false⟩ hl rfl () ⟨5⟩ ⟨7⟩ (by decide) (by decide)⟩

theorem postDelayedTask_early : ∃ l : TaskLedger Unit,
    run TaskLedger.next (.create 0) [.createTaskQueue] = some l ∧
      ¬ NeverEarly l ⟨0, false⟩ () ⟨4611686018427387904⟩ ⟨4611686018427387904⟩ := by
  refine ⟨_, rfl, fun h => ?_⟩
  obtain ⟨m, hm, -, honly⟩ := h rfl _ rfl
  obtain rfl := Option.some.inj hm
  exact absurd (honly [] _ trivial rfl 7 0 ⟨0⟩ (by decide)) (by decide)

end TaskRunner

end EnvironmentCheck
