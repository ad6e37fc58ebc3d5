import EnvironmentCheck.ConcurrentMessageLoop

namespace EnvironmentCheck.WorkerPool

open Transition

variable {C : Type} {n : ℕ} {s t : WorkerPool C n} {e : PoolEvent C n} {w : Fin n}

def notifiedCount (s : WorkerPool C n) : ℕ := (Finset.univ.filter fun w => (s.workers w).isNotified).card

theorem notifiedCount_eq (s : WorkerPool C n) :
    s.notifiedCount = ∑ w, if (s.workers w).isNotified then 1 else 0 :=
  Finset.card_filter _ _

theorem notifiedCount_setWorker (s : WorkerPool C n) (w : Fin n) (state : Worker C) :
    (s.setWorker w state).notifiedCount + (if (s.workers w).isNotified then 1 else 0) =
      s.notifiedCount + if state.isNotified then 1 else 0 := by
  rw [notifiedCount_eq, notifiedCount_eq]
  exact sum_update_add s.workers (fun state => if state.isNotified then 1 else 0) w state

@[simp] theorem setWorker_self (s : WorkerPool C n) (w : Fin n) (state : Worker C) :
    (s.setWorker w state).workers w = state := by
  simp [setWorker]

theorem setWorker_of_ne {v : Fin n} (h : v ≠ w) (state : Worker C) :
    (s.setWorker w state).workers v = s.workers v := by
  simp [setWorker, h]

/-- While a worker sleeps, nothing is due to it, and every queued task has a wake-up under way. -/
def Attended (s : WorkerPool C n) : Prop :=
  ∀ w, s.workers w = .blocked → s.loop.shutdown = false ∧ s.loop.threadTasks w = none ∧
    s.loop.tasks.length ≤ s.notifiedCount + s.notifying

theorem attended_of_awake (h : ∀ w, s.workers w ≠ .blocked) : s.Attended :=
  fun w hw => absurd hw (h w)

theorem notifyAll_awake (s : WorkerPool C n) (w : Fin n) : s.notifyAll.workers w ≠ .blocked := by
  intro hw
  have hblocked : (s.workers w).notify.isBlocked = true := (Worker.isBlocked_iff _).mpr hw
  rw [Worker.notify_isBlocked] at hblocked
  cases hblocked

theorem attended_setWorker {state : Worker C} (h : s.Attended) (hw : (s.workers w).isNotified = false)
    (hstate : state ≠ .blocked) : (s.setWorker w state).Attended := by
  intro v hv
  have hvw : v ≠ w := by
    rintro rfl
    rw [setWorker_self] at hv
    exact hstate hv
  rw [setWorker_of_ne hvw] at hv
  obtain ⟨hopen, hslot, hcount⟩ := h v hv
  have hsum := notifiedCount_setWorker s w state
  simp only [hw, Bool.false_eq_true, if_false, Nat.add_zero] at hsum
  have hle : s.notifiedCount ≤ (s.setWorker w state).notifiedCount := by
    rw [hsum]
    exact Nat.le_add_right _ _
  exact ⟨hopen, hslot, hcount.trans (Nat.add_le_add_right hle _)⟩

theorem attended_take (h : s.Attended)
    (hw : s.workers w = .acquiring ∨ s.workers w = .notified) : (s.take w).Attended := by
  intro v hv
  have hvw : v ≠ w := by
    rintro rfl
    simp [take] at hv
  have hv' : s.workers v = .blocked := by
    simpa [take, setWorker, hvw] using hv
  obtain ⟨hopen, hslot, hcount⟩ := h v hv'
  have hsum := notifiedCount_setWorker s w (.running (s.loop.takeWork w).1)
  have hloop : (s.take w).loop = _ := ConcurrentMessageLoop.takeWork_loop s.loop w
  have hnotified : (s.take w).notifiedCount =
      (s.setWorker w (.running (s.loop.takeWork w).1)).notifiedCount := rfl
  refine ⟨?_, ?_, ?_⟩
  · rw [hloop]
    exact hopen
  · rw [hloop]
    simp only [Function.update_of_ne hvw]
    exact hslot
  · rw [hloop, hnotified]
    simp only [Worker.isNotified, List.length_tail] at hsum ⊢
    change s.loop.tasks.length - 1 ≤ _ + s.notifying
    rcases hw with hw | hw
    · simp only [hw, Bool.false_eq_true, if_false] at hsum
      omega
    · simp only [hw, if_true, Bool.false_eq_true, if_false] at hsum
      omega

theorem attended_step (h : s.Attended) (hs : Step s e t) : t.Attended := by
  cases hs with
  | nothing e hne => exact h
  | push task hopen =>
    intro w hw
    obtain ⟨-, hslot, hcount⟩ := h w hw
    refine ⟨hopen, hslot, ?_⟩
    have hpushed : (s.push { s.loop with tasks := s.loop.tasks ++ [task] } task).notifiedCount =
        s.notifiedCount := rfl
    change (s.loop.tasks ++ [task]).length ≤ _ + (s.notifying + 1)
    rw [hpushed, List.length_append, List.length_singleton]
    omega
  | leaveToCaller e task hne => exact h
  | notifyNone hawake => exact attended_of_awake hawake
  | notifySome w hpos hw =>
    intro v hv
    have hvw : v ≠ w := by
      rintro rfl
      rw [setWorker_self] at hv
      cases hv
    rw [setWorker_of_ne hvw] at hv
    obtain ⟨hopen, hslot, hcount⟩ := h v hv
    have hsum := notifiedCount_setWorker s w .notified
    simp only [hw, Worker.isNotified, Bool.false_eq_true, if_false, if_true] at hsum
    have hsame : ({ s with notifying := s.notifying - 1 }.setWorker w .notified).notifiedCount =
        (s.setWorker w .notified).notifiedCount := rfl
    refine ⟨hopen, hslot, ?_⟩
    rw [hsame]
    change s.loop.tasks.length ≤ _ + (s.notifying - 1)
    omega
  | runOnCaller call hlt => exact h
  | broadcast task => exact attended_of_awake (notifyAll_awake _)
  | terminate => exact attended_of_awake (notifyAll_awake _)
  | take w hw => exact attended_take h hw
  | block w hw hready =>
    obtain ⟨htasks, hopen, hslot⟩ := ConcurrentMessageLoop.ready_eq_false.mp hready
    intro v hv
    refine ⟨hopen, ?_, ?_⟩
    · by_cases hvw : v = w
      · rw [hvw]
        exact hslot
      · rw [setWorker_of_ne hvw] at hv
        exact (h v hv).2.1
    · change s.loop.tasks.length ≤ _
      rw [htasks]
      exact Nat.zero_le _
  | wakeSpuriously w hw =>
    apply attended_setWorker h
    · rw [hw]
      rfl
    · simp
  | runTask w task threadTasks shutdownNow hw =>
    have hset : (s.setWorker w (.running ⟨none, threadTasks, shutdownNow⟩)).Attended := by
      apply attended_setWorker h
      · rw [hw]
        rfl
      · simp
    exact hset
  | runThreadTask w task threadTasks shutdownNow hw =>
    have hset : (s.setWorker w (.running ⟨none, threadTasks, shutdownNow⟩)).Attended := by
      apply attended_setWorker h
      · rw [hw]
        rfl
      · simp
    exact hset
  | leave w shutdownNow hw =>
    apply attended_setWorker h
    · rw [hw]
      rfl
    · cases shutdownNow <;> simp

structure Delivers (s : WorkerPool C n) : Prop where
  broadcasts : ∀ w, s.log.ran w ++ (s.workers w).threadTasks ++ (s.loop.threadTasks w).getD [] =
    s.log.broadcasts ++ s.log.lateBroadcasts
  fifo : s.log.dequeued ++ s.loop.tasks = s.log.pushed
  inTime : s.loop.shutdown = false → s.log.lateBroadcasts = []
  last : ∀ w, (s.workers w).isLast = true → s.loop.shutdown = true ∧
    s.log.broadcasts.length ≤ (s.log.ran w ++ (s.workers w).threadTasks).length

theorem Delivers.setWorker (h : s.Delivers) {state : Worker C}
    (htasks : state.threadTasks = (s.workers w).threadTasks)
    (hlast : state.isLast = true → (s.workers w).isLast = true) :
    (s.setWorker w state).Delivers := by
  have hkeep : ∀ v, ((s.setWorker w state).workers v).threadTasks = (s.workers v).threadTasks := by
    intro v
    by_cases hv : v = w
    · rw [hv, setWorker_self, htasks]
    · rw [setWorker_of_ne hv]
  refine ⟨fun v => ?_, h.fifo, h.inTime, fun v hv => ?_⟩
  · rw [hkeep]
    exact h.broadcasts v
  · rw [hkeep]
    apply h.last v
    by_cases hvw : v = w
    · rw [hvw, setWorker_self] at hv
      rw [hvw]
      exact hlast hv
    · rwa [setWorker_of_ne hvw] at hv

theorem delivers_broadcast (h : s.Delivers) (task : C) : (s.broadcast task).Delivers := by
  have hslot : ∀ w, ((s.broadcast task).loop.threadTasks w).getD [] =
      (s.loop.threadTasks w).getD [] ++ [task] := fun w => rfl
  have hworkers : ∀ w, ((s.broadcast task).workers w).threadTasks = (s.workers w).threadTasks :=
    fun w => Worker.notify_threadTasks _
  have hlasts : ∀ w, ((s.broadcast task).workers w).isLast = (s.workers w).isLast :=
    fun w => Worker.notify_isLast _
  have hran : (s.broadcast task).log.ran = s.log.ran := by
    unfold broadcast notifyAll
    dsimp only
    split_ifs <;> rfl
  have hfifo : (s.broadcast task).log.dequeued ++ s.loop.tasks = (s.broadcast task).log.pushed := by
    unfold broadcast notifyAll
    dsimp only
    split_ifs <;> exact h.fifo
  have hshutdown : (s.broadcast task).loop.shutdown = s.loop.shutdown := rfl
  have hlogs : (s.broadcast task).log.broadcasts ++ (s.broadcast task).log.lateBroadcasts =
      s.log.broadcasts ++ s.log.lateBroadcasts ++ [task] ∧
      (s.loop.shutdown = false → (s.broadcast task).log.lateBroadcasts = []) ∧
      (s.loop.shutdown = true → (s.broadcast task).log.broadcasts = s.log.broadcasts) := by
    unfold broadcast notifyAll
    dsimp only
    cases hs : s.loop.shutdown with
    | false => simp [h.inTime hs]
    | true => simp
  refine ⟨fun w => ?_, hfifo, fun ho => hlogs.2.1 ho, fun w hw => ?_⟩
  · rw [hran, hworkers, hslot, hlogs.1, ← h.broadcasts w]
    simp only [List.append_assoc]
  · rw [hlasts] at hw
    obtain ⟨hdown, hlen⟩ := h.last w hw
    rw [hran, hworkers, hlogs.2.2 hdown]
    exact ⟨hdown, hlen⟩

theorem delivers_take (h : s.Delivers)
    (hw : s.workers w = .acquiring ∨ s.workers w = .notified) : (s.take w).Delivers := by
  have hidle : (s.workers w).threadTasks = [] := by
    rcases hw with hw | hw <;> rw [hw] <;> rfl
  have hnow := h.broadcasts w
  rw [hidle, List.append_nil] at hnow
  have hloop : (s.take w).loop = _ := ConcurrentMessageLoop.takeWork_loop s.loop w
  have hwork : (s.loop.takeWork w).1 = _ := ConcurrentMessageLoop.takeWork_work s.loop w
  have hself : (s.take w).workers w =
      .running ⟨s.loop.tasks.head?, (s.loop.threadTasks w).getD [], s.loop.shutdown⟩ := by
    simp [take, hwork]
  have hothers : ∀ v, v ≠ w → (s.take w).workers v = s.workers v := by
    intro v hv
    simp [take, setWorker, hv]
  have hran : (s.take w).log.ran = s.log.ran := rfl
  have hsent : (s.take w).log.broadcasts = s.log.broadcasts := rfl
  have hlate : (s.take w).log.lateBroadcasts = s.log.lateBroadcasts := rfl
  constructor
  · intro v
    rw [hloop, hran, hsent, hlate]
    by_cases hv : v = w
    · rw [hv, hself]
      simpa [Worker.threadTasks] using hnow
    · rw [hothers v hv]
      simp only [Function.update_of_ne hv]
      exact h.broadcasts v
  · have hdequeued : (s.take w).log.dequeued = s.log.dequeued ++ s.loop.tasks.head?.toList := by
      change s.log.dequeued ++ (s.loop.takeWork w).1.task.toList = _
      rw [hwork]
    rw [hdequeued, hloop]
    change s.log.dequeued ++ s.loop.tasks.head?.toList ++ s.loop.tasks.tail = s.log.pushed
    rw [← h.fifo]
    cases s.loop.tasks with
    | nil => simp
    | cons x xs => simp
  · rw [hloop, hlate]
    exact h.inTime
  · intro v hlast
    rw [hloop, hran, hsent]
    by_cases hv : v = w
    · rw [hv, hself] at hlast ⊢
      refine ⟨hlast, ?_⟩
      change s.log.broadcasts.length ≤ (s.log.ran w ++ (s.loop.threadTasks w).getD []).length
      rw [hnow, List.length_append]
      omega
    · rw [hothers v hv] at hlast ⊢
      exact h.last v hlast

theorem delivers_step (h : s.Delivers) (hs : Step s e t) : t.Delivers := by
  cases hs with
  | nothing e hne => exact h
  | push task hopen =>
    refine ⟨h.broadcasts, ?_, h.inTime, h.last⟩
    change s.log.dequeued ++ (s.loop.tasks ++ [task]) = s.log.pushed ++ [task]
    rw [← h.fifo, List.append_assoc]
  | leaveToCaller e task hne => exact ⟨h.broadcasts, h.fifo, h.inTime, h.last⟩
  | notifyNone hawake => exact ⟨h.broadcasts, h.fifo, h.inTime, h.last⟩
  | notifySome w hpos hw =>
    have hless : Delivers { s with notifying := s.notifying - 1 } :=
      ⟨h.broadcasts, h.fifo, h.inTime, h.last⟩
    apply hless.setWorker
    · simp [hw, Worker.threadTasks]
    · simp [Worker.isLast]
  | runOnCaller call hlt => exact ⟨h.broadcasts, h.fifo, h.inTime, h.last⟩
  | broadcast task => exact delivers_broadcast h task
  | terminate =>
    refine ⟨fun w => ?_, h.fifo, fun hopen => (by cases hopen), fun w hw => ⟨rfl, ?_⟩⟩
    · simp only [shutDown, notifyAll, Worker.notify_threadTasks]
      exact h.broadcasts w
    · simp only [shutDown, notifyAll, Worker.notify_isLast] at hw
      simp only [shutDown, notifyAll, Worker.notify_threadTasks]
      exact (h.last w hw).2
  | take w hw => exact delivers_take h hw
  | block w hw hready =>
    apply h.setWorker
    · rcases hw with hw | hw <;> rw [hw] <;> rfl
    · simp [Worker.isLast]
  | wakeSpuriously w hw =>
    apply h.setWorker
    · rw [hw]
      rfl
    · simp [Worker.isLast]
  | runTask w task threadTasks shutdownNow hw =>
    have hset : (s.setWorker w (.running ⟨none, threadTasks, shutdownNow⟩)).Delivers := by
      apply h.setWorker
      · rw [hw]
        rfl
      · rw [hw]
        exact id
    exact ⟨hset.broadcasts, hset.fifo, hset.inTime, hset.last⟩
  | runThreadTask w task threadTasks shutdownNow hw =>
    have hmoved : ∀ v, Function.update s.log.ran w (s.log.ran w ++ [task]) v ++
        ((s.setWorker w (.running ⟨none, threadTasks, shutdownNow⟩)).workers v).threadTasks =
        s.log.ran v ++ (s.workers v).threadTasks := by
      intro v
      by_cases hv : v = w
      · rw [hv, setWorker_self, hw]
        simp [Worker.threadTasks]
      · rw [setWorker_of_ne hv, Function.update_of_ne hv]
    refine ⟨fun v => ?_, h.fifo, h.inTime, fun v hv => ?_⟩
    · have hbefore := h.broadcasts v
      rw [← hmoved v] at hbefore
      exact hbefore
    · have hbefore : (s.workers v).isLast = true := by
        by_cases hvw : v = w
        · rw [hvw, hw]
          rw [hvw] at hv
          simpa [executeThreadTask, Worker.isLast] using hv
        · have hsame := setWorker_of_ne (s := s) hvw (.running ⟨none, threadTasks, shutdownNow⟩)
          rw [← hsame]
          exact hv
      obtain ⟨hdown, hlen⟩ := h.last v hbefore
      rw [← hmoved v] at hlen
      exact ⟨hdown, hlen⟩
  | leave w shutdownNow hw =>
    apply h.setWorker
    · rw [hw]
      cases shutdownNow <;> rfl
    · rw [hw]
      cases shutdownNow <;> simp [Worker.isLast]

def AnyStep (_ : WorkerPool C n) (_ : PoolEvent C n) : Prop := True

theorem attended_reachable {k : ℕ} {s : WorkerPool C (max k 1)}
    (h : Reachable next AnyStep (create k) s) : s.Attended := by
  apply h.invariant
  · exact attended_of_awake fun w hw => by cases hw
  · intro s e t _ hs _ hn
    exact attended_step hs (step_of_next hn)

theorem delivers_reachable {k : ℕ} {s : WorkerPool C (max k 1)}
    (h : Reachable next AnyStep (create k) s) : s.Delivers := by
  apply h.invariant
  · constructor <;> simp [create, ConcurrentMessageLoop.create, Worker.threadTasks, Worker.isLast]
  · intro s e t _ hs _ hn
    exact delivers_step hs (step_of_next hn)

theorem broadcasts_fifo_wakeUps {workerCount : ℕ} {s : WorkerPool C (max workerCount 1)}
    (h : Reachable next AnyStep (create workerCount) s) :
    (∀ w, s.workers w = .exited →
        ∃ after, after <+: s.log.lateBroadcasts ∧ s.log.ran w = s.log.broadcasts ++ after) ∧
      (∀ w, s.log.ran w <+: s.log.broadcasts ++ s.log.lateBroadcasts) ∧
      s.log.dequeued <+: s.log.pushed ∧
      ∀ w, s.workers w = .blocked → s.loop.shutdown = false ∧ s.loop.threadTasks w = none ∧
        s.loop.tasks.length ≤ s.notifiedCount + s.notifying := by
  have hd := delivers_reachable h
  have hran : ∀ w, s.log.ran w <+: s.log.broadcasts ++ s.log.lateBroadcasts := by
    intro w
    rw [← hd.broadcasts w, List.append_assoc]
    exact List.prefix_append _ _
  refine ⟨fun w hw => ?_, hran, ?_, attended_reachable h⟩
  · have hlen := (hd.last w (by rw [hw]; rfl)).2
    have hnone : (s.workers w).threadTasks = [] := by rw [hw]; rfl
    rw [hnone, List.append_nil] at hlen
    have hfront : s.log.broadcasts <+: s.log.ran w :=
      List.prefix_of_prefix_length_le (List.prefix_append _ _) (hran w) hlen
    obtain ⟨after, hafter⟩ := hfront
    refine ⟨after, ?_, hafter.symm⟩
    have hw' := hran w
    rw [← hafter] at hw'
    exact (List.prefix_append_right_inj _).mp hw'
  · rw [← hd.fifo]
    exact List.prefix_append _ _

def poolRun : List (PoolEvent ℕ 2) :=
  [.acquire 0, .postTaskToAllWorkers (some 7), .postTask (some 8), .notifyOne none,
    .postTaskToAllWorkers (some 9), .terminate, .acquire 0, .acquire 1, .runTask 0,
    .runThreadTask 1, .runThreadTask 0, .runThreadTask 0, .leave 0]

theorem broadcasts_fifo_wakeUps_poolRun :
    ∃ s : WorkerPool ℕ 2, run next (create 2) poolRun = some s ∧
      (∃ after, after <+: s.log.lateBroadcasts ∧ s.log.ran 0 = s.log.broadcasts ++ after) ∧
      s.log.ran 0 = [7, 9] ∧ s.log.ran 1 <+: s.log.broadcasts ++ s.log.lateBroadcasts ∧
      s.log.dequeued <+: s.log.pushed := by
  have hreach : Reachable next AnyStep (create 2) ((run next (create 2) poolRun).get rfl) :=
    ⟨poolRun, meets_true _ _, rfl⟩
  obtain ⟨hexited, hran, hfifo, -⟩ := broadcasts_fifo_wakeUps hreach
  exact ⟨_, rfl, hexited _ rfl, rfl, hran _, hfifo⟩

end EnvironmentCheck.WorkerPool
