import EnvironmentCheck.Library.PriorityQueue
import EnvironmentCheck.TimePoint
import Mathlib.Data.Prod.Lex

namespace EnvironmentCheck

abbrev TaskQueueId := ℕ

/-- `none` is a `std::function` that holds no target. -/
abbrev Closure (C : Type) := Option C

inductive TaskSourceGrade where
  | kUserInteraction
  | kDartMicroTasks
  | kUnspecified
  deriving DecidableEq, Repr

structure DelayedTask (C : Type) where
  order : ℕ
  task : Closure C
  targetTime : TimePoint
  taskSourceGrade : TaskSourceGrade
  deriving DecidableEq, Repr

variable {C : Type}

namespace DelayedTask

def gt (a b : DelayedTask C) : Prop :=
  if a.targetTime = b.targetTime then a.order > b.order else a.targetTime > b.targetTime

instance (a b : DelayedTask C) : Decidable (a.gt b) := by
  unfold gt
  infer_instance

def key (t : DelayedTask C) : TimePoint ×ₗ ℕ := toLex (t.targetTime, t.order)

theorem gt_iff_key_lt (a b : DelayedTask C) : a.gt b ↔ b.key < a.key := by
  unfold gt key
  rw [Prod.Lex.toLex_lt_toLex]
  split_ifs with h
  · simp [h]
  · simp [Ne.symm h]

def notGt (a b : DelayedTask C) : Prop := ¬ a.gt b

instance : DecidableRel (notGt (C := C)) := fun a b => inferInstanceAs (Decidable (¬ a.gt b))

theorem notGt_iff_key_le (a b : DelayedTask C) : a.notGt b ↔ a.key ≤ b.key := by
  rw [notGt, gt_iff_key_lt, not_lt]

instance : Std.Total (notGt (C := C)) := ⟨fun a b => by
  simpa only [notGt_iff_key_le] using le_total a.key b.key⟩

instance : IsTrans (DelayedTask C) notGt := ⟨fun a b c hab hbc => by
  rw [notGt_iff_key_le] at *
  exact hab.trans hbc⟩

theorem targetTime_le_of_key_le {a b : DelayedTask C} (h : a.key ≤ b.key) :
    a.targetTime ≤ b.targetTime :=
  Prod.Lex.monotone_fst _ _ h

end DelayedTask

/-- `std::priority_queue` over `std::greater`: no element is greater than one behind it. -/
abbrev DelayedTaskQueue (C : Type) := PriorityQueue (DelayedTask C) DelayedTask.notGt

inductive TaskHeap where
  | primary
  | secondary
  deriving DecidableEq, Repr

def TaskSourceGrade.heap : TaskSourceGrade → TaskHeap
  | .kUserInteraction => .primary
  | .kUnspecified => .primary
  | .kDartMicroTasks => .secondary

structure TopTask (C : Type) where
  taskQueueId : TaskQueueId
  task : DelayedTask C

@[ext] structure TaskSource (C : Type) where
  taskQueueId : TaskQueueId
  primaryTaskQueue : DelayedTaskQueue C
  secondaryTaskQueue : DelayedTaskQueue C
  secondaryPauseRequests : ℤ
  primary_grade : ∀ t ∈ primaryTaskQueue.elems, t.taskSourceGrade.heap = .primary
  secondary_grade : ∀ t ∈ secondaryTaskQueue.elems, t.taskSourceGrade.heap = .secondary

namespace TaskSource

def create (taskQueueId : TaskQueueId) : TaskSource C where
  taskQueueId := taskQueueId
  primaryTaskQueue := .empty
  secondaryTaskQueue := .empty
  secondaryPauseRequests := 0
  primary_grade := by simp
  secondary_grade := by simp

def shutDown (s : TaskSource C) : TaskSource C :=
  { s with
    primaryTaskQueue := .empty
    secondaryTaskQueue := .empty
    primary_grade := by simp
    secondary_grade := by simp }

def heap (s : TaskSource C) : TaskHeap → DelayedTaskQueue C
  | .primary => s.primaryTaskQueue
  | .secondary => s.secondaryTaskQueue

theorem push_grade {q : DelayedTaskQueue C} {h : TaskHeap} {t : DelayedTask C}
    (hq : ∀ u ∈ q.elems, u.taskSourceGrade.heap = h) (ht : t.taskSourceGrade.heap = h) :
    ∀ u ∈ (q.push t).elems, u.taskSourceGrade.heap = h := by
  intro u hu
  rcases List.mem_cons.mp ((q.push_perm t).mem_iff.mp hu) with rfl | hu
  · exact ht
  · exact hq u hu

def pushPrimary (s : TaskSource C) (t : DelayedTask C) (ht : t.taskSourceGrade.heap = .primary) :
    TaskSource C :=
  { s with
    primaryTaskQueue := s.primaryTaskQueue.push t
    primary_grade := push_grade s.primary_grade ht }

def pushSecondary (s : TaskSource C) (t : DelayedTask C) (ht : t.taskSourceGrade.heap = .secondary) :
    TaskSource C :=
  { s with
    secondaryTaskQueue := s.secondaryTaskQueue.push t
    secondary_grade := push_grade s.secondary_grade ht }

def registerTask (s : TaskSource C) (t : DelayedTask C) : TaskSource C :=
  match h : t.taskSourceGrade with
  | .kUserInteraction => s.pushPrimary t (by rw [h]; rfl)
  | .kUnspecified => s.pushPrimary t (by rw [h]; rfl)
  | .kDartMicroTasks => s.pushSecondary t (by rw [h]; rfl)

def popPrimary (s : TaskSource C) : TaskSource C :=
  { s with
    primaryTaskQueue := s.primaryTaskQueue.pop
    primary_grade := fun u hu => s.primary_grade u (PriorityQueue.mem_of_mem_pop hu) }

def popSecondary (s : TaskSource C) : TaskSource C :=
  { s with
    secondaryTaskQueue := s.secondaryTaskQueue.pop
    secondary_grade := fun u hu => s.secondary_grade u (PriorityQueue.mem_of_mem_pop hu) }

def popTask (s : TaskSource C) : TaskSourceGrade → TaskSource C
  | .kUserInteraction => s.popPrimary
  | .kUnspecified => s.popPrimary
  | .kDartMicroTasks => s.popSecondary

def getNumPendingTasks (s : TaskSource C) : ℕ :=
  s.primaryTaskQueue.size + if s.secondaryPauseRequests = 0 then s.secondaryTaskQueue.size else 0

def isEmpty (s : TaskSource C) : Bool := s.getNumPendingTasks = 0

/-- `none` where `FOREVER_CHECK(!IsEmpty())` fails. -/
def top (s : TaskSource C) : Option (TopTask C) :=
  if s.isEmpty then none
  else if s.secondaryPauseRequests > 0 ∨ s.secondaryTaskQueue.isEmpty then
    s.primaryTaskQueue.top.map (TopTask.mk s.taskQueueId)
  else if s.primaryTaskQueue.isEmpty then
    s.secondaryTaskQueue.top.map (TopTask.mk s.taskQueueId)
  else
    s.primaryTaskQueue.top.bind fun primaryTop => s.secondaryTaskQueue.top.map fun secondaryTop =>
      if primaryTop.gt secondaryTop then ⟨s.taskQueueId, secondaryTop⟩
      else ⟨s.taskQueueId, primaryTop⟩

def pauseSecondary (s : TaskSource C) : TaskSource C :=
  { s with secondaryPauseRequests := s.secondaryPauseRequests + 1 }

def resumeSecondary (s : TaskSource C) : TaskSource C :=
  { s with secondaryPauseRequests := s.secondaryPauseRequests - 1 }

variable {s : TaskSource C} {t : DelayedTask C} {g : TaskSourceGrade} {h : TaskHeap}

theorem registerTask_eq (t : DelayedTask C) :
    (∃ ht, s.registerTask t = s.pushPrimary t ht) ∨ ∃ ht, s.registerTask t = s.pushSecondary t ht := by
  unfold registerTask
  split
  · next ht => exact .inl ⟨by rw [ht]; rfl, rfl⟩
  · next ht => exact .inl ⟨by rw [ht]; rfl, rfl⟩
  · next ht => exact .inr ⟨by rw [ht]; rfl, rfl⟩

@[simp] theorem registerTask_taskQueueId : (s.registerTask t).taskQueueId = s.taskQueueId := by
  rcases registerTask_eq (s := s) t with ⟨ht, he⟩ | ⟨ht, he⟩ <;> rw [he] <;> rfl

@[simp] theorem registerTask_pauses :
    (s.registerTask t).secondaryPauseRequests = s.secondaryPauseRequests := by
  rcases registerTask_eq (s := s) t with ⟨ht, he⟩ | ⟨ht, he⟩ <;> rw [he] <;> rfl

theorem popTask_heap :
    (s.popTask g).heap h = if h = g.heap then (s.heap h).pop else s.heap h := by
  cases g <;> cases h <;> rfl

@[simp] theorem popTask_taskQueueId : (s.popTask g).taskQueueId = s.taskQueueId := by
  cases g <;> rfl

@[simp] theorem popTask_pauses :
    (s.popTask g).secondaryPauseRequests = s.secondaryPauseRequests := by
  cases g <;> rfl

end TaskSource

end EnvironmentCheck
