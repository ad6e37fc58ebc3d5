import EnvironmentCheck.Library.Ordered
import EnvironmentCheck.TaskSource
import Mathlib.Logic.Function.Basic

namespace EnvironmentCheck

abbrev ThreadId := ℕ

structure Wakeable where
  armed : Option TimePoint
  deriving DecidableEq, Repr

def Wakeable.wakeUp (_ : Wakeable) (time : TimePoint) : Wakeable := ⟨some time⟩

/-- `subsumedBy` is `none` for `_kUnmerged`, `wakeable` is `none` for a null pointer. -/
@[ext] structure TaskQueueEntry (C : Type) where
  wakeable : Option Wakeable
  taskObservers : OrderedMap ℤ (Closure C)
  taskSource : TaskSource C
  ownerOf : OrderedSet TaskQueueId
  subsumedBy : Option TaskQueueId
  createdFor : TaskQueueId

def TaskQueueEntry.create {C : Type} (createdFor : TaskQueueId) : TaskQueueEntry C where
  wakeable := none
  taskObservers := .empty
  taskSource := .create createdFor
  ownerOf := .empty
  subsumedBy := none
  createdFor := createdFor

@[ext] structure MessageLoopTaskQueues (C : Type) where
  queueEntries : TaskQueueId → Option (TaskQueueEntry C)
  taskQueueIdCounter : ℕ
  order : BitVec 32
  tlsTaskSourceGrade : ThreadId → Option TaskSourceGrade

namespace MessageLoopTaskQueues

variable {C : Type}

def create (thread : ThreadId) : MessageLoopTaskQueues C where
  queueEntries _ := none
  taskQueueIdCounter := 0
  order := 0
  tlsTaskSourceGrade := Function.update (fun _ => none) thread (some .kUnspecified)

def modifyEntry (s : MessageLoopTaskQueues C) (queueId : TaskQueueId)
    (f : TaskQueueEntry C → TaskQueueEntry C) : MessageLoopTaskQueues C :=
  { s with queueEntries := Function.update s.queueEntries queueId ((s.queueEntries queueId).map f) }

def eraseEntry (s : MessageLoopTaskQueues C) (queueId : TaskQueueId) : MessageLoopTaskQueues C :=
  { s with queueEntries := Function.update s.queueEntries queueId none }

def createTaskQueue (s : MessageLoopTaskQueues C) : TaskQueueId × MessageLoopTaskQueues C :=
  let loopId := s.taskQueueIdCounter
  (loopId,
    { s with
      taskQueueIdCounter := s.taskQueueIdCounter + 1
      queueEntries := Function.update s.queueEntries loopId (some (.create loopId)) })

-- In what follows `none` is an `at()` that throws or a `FOREVER_CHECK` that fails.

def anyPending (s : MessageLoopTaskQueues C) : List TaskQueueId → Option Bool
  | [] => some false
  | subsumed :: rest => do
    let entry ← s.queueEntries subsumed
    if !entry.taskSource.isEmpty then return true
    else s.anyPending rest

def hasPendingTasksUnlocked (s : MessageLoopTaskQueues C) (queueId : TaskQueueId) : Option Bool := do
  let entry ← s.queueEntries queueId
  if entry.subsumedBy ≠ none then return false
  else if !entry.taskSource.isEmpty then return true
  else s.anyPending entry.ownerOf.elems

def topTaskUpdater (topTask : Option (TopTask C)) (source : TaskSource C) : Option (TopTask C) :=
  if source.isEmpty then topTask
  else
    match topTask, source.top with
    | none, otherTask => otherTask
    | some top, none => some top
    | some top, some otherTask => if top.task.gt otherTask.task then some otherTask else some top

def sources (s : MessageLoopTaskQueues C) (queueIds : List TaskQueueId) :
    Option (List (TaskSource C)) :=
  queueIds.mapM fun queueId => (s.queueEntries queueId).map (·.taskSource)

def peekNextTaskUnlocked (s : MessageLoopTaskQueues C) (owner : TaskQueueId) :
    Option (TopTask C) := do
  let entry ← s.queueEntries owner
  if entry.ownerOf.isEmpty then entry.taskSource.top
  else
    let subsumedTasks ← s.sources entry.ownerOf.elems
    subsumedTasks.foldl topTaskUpdater (topTaskUpdater none entry.taskSource)

def getNextWakeTimeUnlocked (s : MessageLoopTaskQueues C) (queueId : TaskQueueId) :
    Option TimePoint := do
  let top ← s.peekNextTaskUnlocked queueId
  return top.task.targetTime

def rearm (s : MessageLoopTaskQueues C) (queueId : TaskQueueId) (time : TimePoint) :
    MessageLoopTaskQueues C :=
  s.modifyEntry queueId fun e => { e with wakeable := e.wakeable.map (·.wakeUp time) }

def wakeUpUnlocked (s : MessageLoopTaskQueues C) (queueId : TaskQueueId) (time : TimePoint) :
    Option (MessageLoopTaskQueues C) := do
  let _ ← s.queueEntries queueId
  return s.rearm queueId time

-- The wake-up that ends `RegisterTask`, `Merge`, `Unmerge` and `ResumeSecondarySource`.
def wakeUpIfPending (s : MessageLoopTaskQueues C) (queueId : TaskQueueId) :
    Option (MessageLoopTaskQueues C) := do
  if ← s.hasPendingTasksUnlocked queueId then
    s.wakeUpUnlocked queueId (← s.getNextWakeTimeUnlocked queueId)
  else return s

def dispose (s : MessageLoopTaskQueues C) (queueId : TaskQueueId) :
    Option (MessageLoopTaskQueues C) := do
  let queueEntry ← s.queueEntries queueId
  return (queueEntry.ownerOf.elems.foldl eraseEntry s).eraseEntry queueId

def shutDownSource (s : MessageLoopTaskQueues C) (queueId : TaskQueueId) :
    Option (MessageLoopTaskQueues C) := do
  let _ ← s.queueEntries queueId
  return s.modifyEntry queueId fun e => { e with taskSource := e.taskSource.shutDown }

def disposeTasks (s : MessageLoopTaskQueues C) (queueId : TaskQueueId) :
    Option (MessageLoopTaskQueues C) := do
  let queueEntry ← s.queueEntries queueId
  (queueId :: queueEntry.ownerOf.elems).foldlM shutDownSource s

/-- The `size_t` that an `int` converts to. -/
def orderStamp (order : BitVec 32) : ℕ := (order.signExtend 64).toNat

def addTask (s : MessageLoopTaskQueues C) (queueId : TaskQueueId) (task : DelayedTask C) :
    MessageLoopTaskQueues C :=
  { s with order := s.order + 1 }.modifyEntry queueId fun e =>
    { e with taskSource := e.taskSource.registerTask task }

def registerTask (s : MessageLoopTaskQueues C) (queueId : TaskQueueId) (task : Closure C)
    (targetTime : TimePoint) (taskSourceGrade : TaskSourceGrade) :
    Option (MessageLoopTaskQueues C) := do
  let order := orderStamp s.order
  let queueEntry ← s.queueEntries queueId
  let delayedTask : DelayedTask C := ⟨order, task, targetTime, taskSourceGrade⟩
  let loopToWake := queueEntry.subsumedBy.getD queueId
  (s.addTask queueId delayedTask).wakeUpIfPending loopToWake

def popTask (s : MessageLoopTaskQueues C) (queueId : TaskQueueId) (grade : TaskSourceGrade) :
    MessageLoopTaskQueues C :=
  s.modifyEntry queueId fun e => { e with taskSource := e.taskSource.popTask grade }

def setTls (s : MessageLoopTaskQueues C) (thread : ThreadId) (grade : TaskSourceGrade) :
    MessageLoopTaskQueues C :=
  { s with tlsTaskSourceGrade := Function.update s.tlsTaskSourceGrade thread (some grade) }

def getNextTaskToRun (s : MessageLoopTaskQueues C) (thread : ThreadId) (queueId : TaskQueueId)
    (fromTime : TimePoint) : Option (Closure C × MessageLoopTaskQueues C) := do
  if !(← s.hasPendingTasksUnlocked queueId) then return (none, s)
  else
    let top ← s.peekNextTaskUnlocked queueId
    let wakeTime ←
      if !(← s.hasPendingTasksUnlocked queueId) then some TimePoint.max
      else s.getNextWakeTimeUnlocked queueId
    let woken ← s.wakeUpUnlocked queueId wakeTime
    if top.task.targetTime > fromTime then return (none, woken)
    else
      let invocation := top.task.task
      let grade := top.task.taskSourceGrade
      let entry ← woken.queueEntries top.taskQueueId
      let source := entry.taskSource.popTask grade
      -- `top.task` refers to the front slot of the heap, which `pop` has filled with the next
      -- element if there is one; an emptied heap leaves the slot's memory as it was.
      let slot := ((source.heap grade.heap).top).getD top.task
      return (invocation,
        (woken.popTask top.taskQueueId grade).setTls thread slot.taskSourceGrade)

def getNumPendingTasks (s : MessageLoopTaskQueues C) (queueId : TaskQueueId) : Option ℕ := do
  let queueEntry ← s.queueEntries queueId
  if queueEntry.subsumedBy ≠ none then return 0
  else
    let subsumedTasks ← s.sources queueEntry.ownerOf.elems
    return queueEntry.taskSource.getNumPendingTasks
      + (subsumedTasks.map TaskSource.getNumPendingTasks).sum

def addTaskObserver (s : MessageLoopTaskQueues C) (queueId : TaskQueueId) (key : ℤ)
    (callback : Closure C) : Option (MessageLoopTaskQueues C) := do
  let _ ← s.queueEntries queueId
  return s.modifyEntry queueId fun e =>
    { e with taskObservers := e.taskObservers.insert (key, callback) }

def removeTaskObserver (s : MessageLoopTaskQueues C) (queueId : TaskQueueId) (key : ℤ) :
    Option (MessageLoopTaskQueues C) := do
  let _ ← s.queueEntries queueId
  return s.modifyEntry queueId fun e => { e with taskObservers := e.taskObservers.erase key }

/-- `none` also where the wakeable was set before, which `FOREVER_CHECK` excludes. -/
def setWakeable (s : MessageLoopTaskQueues C) (queueId : TaskQueueId) (wakeable : Option Wakeable) :
    Option (MessageLoopTaskQueues C) := do
  let entry ← s.queueEntries queueId
  if entry.wakeable ≠ none then none
  else return s.modifyEntry queueId fun e => { e with wakeable := wakeable }

def setMerged (s : MessageLoopTaskQueues C) (owner subsumed : TaskQueueId) :
    MessageLoopTaskQueues C :=
  (s.modifyEntry owner fun e => { e with ownerOf := e.ownerOf.insert subsumed }).modifyEntry
    subsumed fun e => { e with subsumedBy := some owner }

def merge (s : MessageLoopTaskQueues C) (owner subsumed : TaskQueueId) :
    Option (Bool × MessageLoopTaskQueues C) := do
  if owner = subsumed then return (true, s)
  else
    let ownerEntry ← s.queueEntries owner
    let subsumedEntry ← s.queueEntries subsumed
    if subsumed ∈ ownerEntry.ownerOf then return (true, s)
    else if ownerEntry.subsumedBy ≠ none then return (false, s)
    else if !subsumedEntry.ownerOf.isEmpty then return (false, s)
    else if subsumedEntry.subsumedBy ≠ none then return (false, s)
    else
      return (true, ← (s.setMerged owner subsumed).wakeUpIfPending owner)

def setUnmerged (s : MessageLoopTaskQueues C) (owner subsumed : TaskQueueId) :
    MessageLoopTaskQueues C :=
  (s.modifyEntry subsumed fun e => { e with subsumedBy := none }).modifyEntry
    owner fun e => { e with ownerOf := e.ownerOf.erase subsumed }

def unmerge (s : MessageLoopTaskQueues C) (owner subsumed : TaskQueueId) :
    Option (Bool × MessageLoopTaskQueues C) := do
  let ownerEntry ← s.queueEntries owner
  if ownerEntry.ownerOf.isEmpty then return (false, s)
  else if ownerEntry.subsumedBy ≠ none then return (false, s)
  else
    let subsumedEntry ← s.queueEntries subsumed
    if subsumedEntry.subsumedBy = none then return (false, s)
    else if subsumed ∉ ownerEntry.ownerOf then return (false, s)
    else
      let woken ← (s.setUnmerged owner subsumed).wakeUpIfPending owner
      return (true, ← woken.wakeUpIfPending subsumed)

def pauseSecondarySource (s : MessageLoopTaskQueues C) (queueId : TaskQueueId) :
    Option (MessageLoopTaskQueues C) := do
  let _ ← s.queueEntries queueId
  return s.modifyEntry queueId fun e => { e with taskSource := e.taskSource.pauseSecondary }

def resume (s : MessageLoopTaskQueues C) (queueId : TaskQueueId) : MessageLoopTaskQueues C :=
  s.modifyEntry queueId fun e => { e with taskSource := e.taskSource.resumeSecondary }

def resumeSecondarySource (s : MessageLoopTaskQueues C) (queueId : TaskQueueId) :
    Option (MessageLoopTaskQueues C) := do
  let _ ← s.queueEntries queueId
  (s.resume queueId).wakeUpIfPending queueId

end MessageLoopTaskQueues

end EnvironmentCheck
