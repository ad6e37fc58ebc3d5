import EnvironmentCheck.Library.Tally
import EnvironmentCheck.Library.Transition
import EnvironmentCheck.TaskSource

namespace EnvironmentCheck

/-- What the threads share under `tasks_mutex_`. A worker is named by its place in `workers_`. -/
structure ConcurrentMessageLoop (C : Type) (n : ℕ) where
  tasks : List C
  threadTasks : Fin n → Option (List C)
  shutdown : Bool

structure Work (C : Type) where
  task : Closure C
  threadTasks : List C
  shutdownNow : Bool

variable {C : Type} {n : ℕ}

namespace ConcurrentMessageLoop

def create : ConcurrentMessageLoop C n := ⟨[], fun _ => none, false⟩

/-- `none` where the loop is shut down: the caller runs the task. -/
def postTask (l : ConcurrentMessageLoop C n) (task : C) : Option (ConcurrentMessageLoop C n) :=
  if l.shutdown then none else some { l with tasks := l.tasks ++ [task] }

def terminate (l : ConcurrentMessageLoop C n) : ConcurrentMessageLoop C n :=
  { l with shutdown := true }

def postTaskToAllWorkers (l : ConcurrentMessageLoop C n) (task : C) : ConcurrentMessageLoop C n :=
  { l with threadTasks := fun worker => some ((l.threadTasks worker).getD [] ++ [task]) }

def hasThreadTasksLocked (l : ConcurrentMessageLoop C n) (worker : Fin n) : Bool :=
  (l.threadTasks worker).isSome

def getThreadTasksLocked (l : ConcurrentMessageLoop C n) (worker : Fin n) :
    List C × ConcurrentMessageLoop C n :=
  ((l.threadTasks worker).getD [],
    { l with threadTasks := Function.update l.threadTasks worker none })

def ready (l : ConcurrentMessageLoop C n) (worker : Fin n) : Bool :=
  !l.tasks.isEmpty || l.shutdown || l.hasThreadTasksLocked worker

def takeWork (l : ConcurrentMessageLoop C n) (worker : Fin n) : Work C × ConcurrentMessageLoop C n :=
  let shutdownNow := l.shutdown
  let task := l.tasks.head?
  let popped := { l with tasks := l.tasks.tail }
  if popped.hasThreadTasksLocked worker then
    let found := popped.getThreadTasksLocked worker
    (⟨task, found.1, shutdownNow⟩, found.2)
  else (⟨task, [], shutdownNow⟩, popped)

theorem takeWork_work (l : ConcurrentMessageLoop C n) (w : Fin n) :
    (l.takeWork w).1 = ⟨l.tasks.head?, (l.threadTasks w).getD [], l.shutdown⟩ := by
  unfold takeWork hasThreadTasksLocked getThreadTasksLocked
  cases h : l.threadTasks w <;> simp [h]

theorem takeWork_loop (l : ConcurrentMessageLoop C n) (w : Fin n) :
    (l.takeWork w).2 =
      { l with tasks := l.tasks.tail, threadTasks := Function.update l.threadTasks w none } := by
  unfold takeWork hasThreadTasksLocked getThreadTasksLocked
  cases h : l.threadTasks w with
  | none =>
    have hsame : Function.update l.threadTasks w none = l.threadTasks := by
      rw [← h, Function.update_eq_self]
    simp [h, hsame]
  | some ts => simp [h]

theorem ready_eq_false {l : ConcurrentMessageLoop C n} {w : Fin n} :
    l.ready w = false ↔ l.tasks = [] ∧ l.shutdown = false ∧ l.threadTasks w = none := by
  simp [ready, hasThreadTasksLocked, and_assoc]

end ConcurrentMessageLoop

inductive Worker (C : Type) where
  | acquiring
  | blocked
  | notified
  | running (work : Work C)
  | exited

namespace Worker

def isBlocked : Worker C → Bool
  | .blocked => true
  | _ => false

def isNotified : Worker C → Bool
  | .notified => true
  | _ => false

/-- After its last turn: it read `shutdown_` as set. -/
def isLast : Worker C → Bool
  | .running work => work.shutdownNow
  | .exited => true
  | _ => false

def notify : Worker C → Worker C
  | .blocked => .notified
  | w => w

def inHand : Worker C → List C
  | .running work => work.task.toList
  | _ => []

def threadTasks : Worker C → List C
  | .running work => work.threadTasks
  | _ => []

@[simp] theorem isBlocked_iff (w : Worker C) : w.isBlocked = true ↔ w = .blocked := by
  cases w <;> simp [isBlocked]

@[simp] theorem notify_isBlocked (w : Worker C) : w.notify.isBlocked = false := by
  cases w <;> rfl

@[simp] theorem notify_isLast (w : Worker C) : w.notify.isLast = w.isLast := by
  cases w <;> rfl

@[simp] theorem notify_inHand (w : Worker C) : w.notify.inHand = w.inHand := by
  cases w <;> rfl

@[simp] theorem notify_threadTasks (w : Worker C) : w.notify.threadTasks = w.threadTasks := by
  cases w <;> rfl

end Worker

structure PoolLog (C : Type) (n : ℕ) where
  posted : List C
  executed : List C
  pushed : List C
  dequeued : List C
  broadcasts : List C
  lateBroadcasts : List C
  ran : Fin n → List C

/-- The loop, its workers and the calls of `PostTask` in progress: those between their push and
their `notify_one`, and those that have a closure to run themselves. -/
structure WorkerPool (C : Type) (n : ℕ) where
  loop : ConcurrentMessageLoop C n
  workers : Fin n → Worker C
  notifying : ℕ
  onCaller : List C
  log : PoolLog C n

inductive PoolEvent (C : Type) (n : ℕ) where
  | postTask (task : Closure C)
  | postToExpired (task : Closure C)
  | notifyOne (worker : Option (Fin n))
  | runOnCaller (call : ℕ)
  | postTaskToAllWorkers (task : Closure C)
  | terminate
  | acquire (worker : Fin n)
  | wakeSpuriously (worker : Fin n)
  | runTask (worker : Fin n)
  | runThreadTask (worker : Fin n)
  | leave (worker : Fin n)

namespace WorkerPool

def create (workerCount : ℕ) : WorkerPool C (max workerCount 1) where
  loop := .create
  workers _ := .acquiring
  notifying := 0
  onCaller := []
  log := ⟨[], [], [], [], [], [], fun _ => []⟩

def setWorker (s : WorkerPool C n) (worker : Fin n) (state : Worker C) : WorkerPool C n :=
  { s with workers := Function.update s.workers worker state }

def notifyAll (s : WorkerPool C n) : WorkerPool C n :=
  { s with workers := fun worker => (s.workers worker).notify }

def push (s : WorkerPool C n) (loop : ConcurrentMessageLoop C n) (task : C) : WorkerPool C n :=
  { s with
    loop := loop
    notifying := s.notifying + 1
    log := { s.log with posted := s.log.posted ++ [task], pushed := s.log.pushed ++ [task] } }

def leaveToCaller (s : WorkerPool C n) (task : C) : WorkerPool C n :=
  { s with
    onCaller := s.onCaller ++ [task]
    log := { s.log with posted := s.log.posted ++ [task] } }

def broadcast (s : WorkerPool C n) (task : C) : WorkerPool C n :=
  { s with
    loop := s.loop.postTaskToAllWorkers task
    log :=
      if s.loop.shutdown then { s.log with lateBroadcasts := s.log.lateBroadcasts ++ [task] }
      else { s.log with broadcasts := s.log.broadcasts ++ [task] } }.notifyAll

def shutDown (s : WorkerPool C n) : WorkerPool C n :=
  { s with loop := s.loop.terminate }.notifyAll

def take (s : WorkerPool C n) (worker : Fin n) : WorkerPool C n :=
  { s with
    loop := (s.loop.takeWork worker).2
    log := { s.log with
      dequeued := s.log.dequeued ++ (s.loop.takeWork worker).1.task.toList } }.setWorker worker
    (.running (s.loop.takeWork worker).1)

def execute (s : WorkerPool C n) (task : C) : WorkerPool C n :=
  { s with log := { s.log with executed := s.log.executed ++ [task] } }

def executeThreadTask (s : WorkerPool C n) (worker : Fin n) (task : C) : WorkerPool C n :=
  { s with
    log := { s.log with
      ran := Function.update s.log.ran worker (s.log.ran worker ++ [task]) } }

def next (s : WorkerPool C n) : PoolEvent C n → Option (WorkerPool C n)
  | .postTask none => some s
  | .postTask (some task) =>
    match s.loop.postTask task with
    | some loop => some (s.push loop task)
    | none => some (s.leaveToCaller task)
  | .postToExpired none => some s
  | .postToExpired (some task) => some (s.leaveToCaller task)
  | .notifyOne none =>
    if 0 < s.notifying ∧ ∀ worker, (s.workers worker).isBlocked = false then
      some { s with notifying := s.notifying - 1 }
    else none
  | .notifyOne (some worker) =>
    if 0 < s.notifying ∧ (s.workers worker).isBlocked then
      some ({ s with notifying := s.notifying - 1 }.setWorker worker .notified)
    else none
  | .runOnCaller call =>
    (s.onCaller[call]?).map fun task =>
      { s with onCaller := s.onCaller.eraseIdx call }.execute task
  | .postTaskToAllWorkers none => some s
  | .postTaskToAllWorkers (some task) => some (s.broadcast task)
  | .terminate => some s.shutDown
  | .acquire worker =>
    match s.workers worker with
    | .acquiring | .notified =>
      some (if s.loop.ready worker then s.take worker else s.setWorker worker .blocked)
    | _ => none
  | .wakeSpuriously worker =>
    if (s.workers worker).isBlocked then some (s.setWorker worker .acquiring) else none
  | .runTask worker =>
    match s.workers worker with
    | .running ⟨some task, threadTasks, shutdownNow⟩ =>
      some ((s.setWorker worker (.running ⟨none, threadTasks, shutdownNow⟩)).execute task)
    | _ => none
  | .runThreadTask worker =>
    match s.workers worker with
    | .running ⟨none, task :: threadTasks, shutdownNow⟩ =>
      some ((s.setWorker worker (.running ⟨none, threadTasks, shutdownNow⟩)).executeThreadTask
        worker task)
    | _ => none
  | .leave worker =>
    match s.workers worker with
    | .running ⟨none, [], shutdownNow⟩ =>
      some (s.setWorker worker (if shutdownNow then .exited else .acquiring))
    | _ => none

inductive Step (s : WorkerPool C n) : PoolEvent C n → WorkerPool C n → Prop where
  | nothing (e : PoolEvent C n) : e ≠ .terminate → Step s e s
  | push (task : C) : s.loop.shutdown = false →
      Step s (.postTask (some task)) (s.push { s.loop with tasks := s.loop.tasks ++ [task] } task)
  | leaveToCaller (e : PoolEvent C n) (task : C) : e ≠ .terminate → Step s e (s.leaveToCaller task)
  | notifyNone : (∀ w, s.workers w ≠ .blocked) →
      Step s (.notifyOne none) { s with notifying := s.notifying - 1 }
  | notifySome (w : Fin n) : 0 < s.notifying → s.workers w = .blocked →
      Step s (.notifyOne (some w))
        ({ s with notifying := s.notifying - 1 }.setWorker w .notified)
  | runOnCaller (call : ℕ) (h : call < s.onCaller.length) :
      Step s (.runOnCaller call)
        ({ s with onCaller := s.onCaller.eraseIdx call }.execute s.onCaller[call])
  | broadcast (task : C) : Step s (.postTaskToAllWorkers (some task)) (s.broadcast task)
  | terminate : Step s .terminate s.shutDown
  | take (w : Fin n) : s.workers w = .acquiring ∨ s.workers w = .notified →
      Step s (.acquire w) (s.take w)
  | block (w : Fin n) : s.workers w = .acquiring ∨ s.workers w = .notified →
      s.loop.ready w = false → Step s (.acquire w) (s.setWorker w .blocked)
  | wakeSpuriously (w : Fin n) : s.workers w = .blocked →
      Step s (.wakeSpuriously w) (s.setWorker w .acquiring)
  | runTask (w : Fin n) (task : C) (threadTasks : List C) (shutdownNow : Bool) :
      s.workers w = .running ⟨some task, threadTasks, shutdownNow⟩ →
      Step s (.runTask w)
        ((s.setWorker w (.running ⟨none, threadTasks, shutdownNow⟩)).execute task)
  | runThreadTask (w : Fin n) (task : C) (threadTasks : List C) (shutdownNow : Bool) :
      s.workers w = .running ⟨none, task :: threadTasks, shutdownNow⟩ →
      Step s (.runThreadTask w)
        ((s.setWorker w (.running ⟨none, threadTasks, shutdownNow⟩)).executeThreadTask w task)
  | leave (w : Fin n) (shutdownNow : Bool) :
      s.workers w = .running ⟨none, [], shutdownNow⟩ →
      Step s (.leave w) (s.setWorker w (if shutdownNow then .exited else .acquiring))

variable {s t : WorkerPool C n} {e : PoolEvent C n}

theorem step_acquire {w : Fin n} (h : s.workers w = .acquiring ∨ s.workers w = .notified)
    (ht : t = if s.loop.ready w then s.take w else s.setWorker w .blocked) :
    Step s (.acquire w) t := by
  cases hready : s.loop.ready w with
  | true =>
    rw [ht, hready]
    exact .take w h
  | false =>
    rw [ht, hready]
    exact .block w h hready

theorem step_of_next (h : s.next e = some t) : Step s e t := by
  cases e with
  | postTask task =>
    cases task with
    | none =>
      rw [← Option.some.inj h]
      exact .nothing _ (by simp)
    | some task =>
      cases hshutdown : s.loop.shutdown with
      | false =>
        have hopen : ¬ s.loop.shutdown = true := by simp [hshutdown]
        simp only [next, ConcurrentMessageLoop.postTask, if_neg hopen] at h
        rw [← Option.some.inj h]
        exact .push task hshutdown
      | true =>
        simp only [next, ConcurrentMessageLoop.postTask, if_pos hshutdown] at h
        rw [← Option.some.inj h]
        exact .leaveToCaller _ task (by simp)
  | postToExpired task =>
    cases task with
    | none =>
      rw [← Option.some.inj h]
      exact .nothing _ (by simp)
    | some task =>
      rw [← Option.some.inj h]
      exact .leaveToCaller _ task (by simp)
  | notifyOne worker =>
    cases worker with
    | none =>
      simp only [next] at h
      split_ifs at h with hnone
      rw [← Option.some.inj h]
      apply Step.notifyNone
      intro w hw
      have hblocked := hnone.2 w
      rw [hw] at hblocked
      cases hblocked
    | some w =>
      simp only [next] at h
      split_ifs at h with hw
      rw [← Option.some.inj h]
      exact .notifySome w hw.1 ((Worker.isBlocked_iff _).mp hw.2)
  | runOnCaller call =>
    obtain ⟨task, htask, rfl⟩ := Option.map_eq_some_iff.mp h
    obtain ⟨hlt, rfl⟩ := List.getElem?_eq_some_iff.mp htask
    exact .runOnCaller call hlt
  | postTaskToAllWorkers task =>
    cases task with
    | none =>
      rw [← Option.some.inj h]
      exact .nothing _ (by simp)
    | some task =>
      rw [← Option.some.inj h]
      exact .broadcast task
  | terminate =>
    rw [← Option.some.inj h]
    exact .terminate
  | acquire w =>
    simp only [next] at h
    split at h
    · next hw => exact step_acquire (.inl hw) (Option.some.inj h).symm
    · next hw => exact step_acquire (.inr hw) (Option.some.inj h).symm
    · cases h
  | wakeSpuriously w =>
    simp only [next] at h
    split_ifs at h with hw
    rw [← Option.some.inj h]
    exact .wakeSpuriously w ((Worker.isBlocked_iff _).mp hw)
  | runTask w =>
    simp only [next] at h
    split at h
    · next task threadTasks shutdownNow hw =>
      rw [← Option.some.inj h]
      exact .runTask w task threadTasks shutdownNow hw
    · cases h
  | runThreadTask w =>
    simp only [next] at h
    split at h
    · next task threadTasks shutdownNow hw =>
      rw [← Option.some.inj h]
      exact .runThreadTask w task threadTasks shutdownNow hw
    · cases h
  | leave w =>
    simp only [next] at h
    split at h
    · next shutdownNow hw =>
      rw [← Option.some.inj h]
      exact .leave w shutdownNow hw
    · cases h

end WorkerPool

end EnvironmentCheck
