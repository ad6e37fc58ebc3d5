import EnvironmentCheck.Library.Transition
import EnvironmentCheck.MessageLoopTaskQueues

namespace EnvironmentCheck

inductive QueueCall (C : Type) where
  | createTaskQueue
  | dispose (queueId : TaskQueueId)
  | disposeTasks (queueId : TaskQueueId)
  | registerTask (queueId : TaskQueueId) (task : Closure C) (targetTime : TimePoint)
      (taskSourceGrade : TaskSourceGrade)
  | getNextTaskToRun (thread : ThreadId) (queueId : TaskQueueId) (fromTime : TimePoint)
  | addTaskObserver (queueId : TaskQueueId) (key : ℤ) (callback : Closure C)
  | removeTaskObserver (queueId : TaskQueueId) (key : ℤ)
  | setWakeable (queueId : TaskQueueId) (wakeable : Option Wakeable)
  | merge (owner subsumed : TaskQueueId)
  | unmerge (owner subsumed : TaskQueueId)
  | pauseSecondarySource (queueId : TaskQueueId)
  | resumeSecondarySource (queueId : TaskQueueId)

namespace MessageLoopTaskQueues

variable {C : Type}

def next (s : MessageLoopTaskQueues C) : QueueCall C → Option (MessageLoopTaskQueues C)
  | .createTaskQueue => some s.createTaskQueue.2
  | .dispose queueId => s.dispose queueId
  | .disposeTasks queueId => s.disposeTasks queueId
  | .registerTask queueId task targetTime grade => s.registerTask queueId task targetTime grade
  | .getNextTaskToRun thread queueId fromTime =>
    (s.getNextTaskToRun thread queueId fromTime).map Prod.snd
  | .addTaskObserver queueId key callback => s.addTaskObserver queueId key callback
  | .removeTaskObserver queueId key => s.removeTaskObserver queueId key
  | .setWakeable queueId wakeable => s.setWakeable queueId wakeable
  | .merge owner subsumed => (s.merge owner subsumed).map Prod.snd
  | .unmerge owner subsumed => (s.unmerge owner subsumed).map Prod.snd
  | .pauseSecondarySource queueId => s.pauseSecondarySource queueId
  | .resumeSecondarySource queueId => s.resumeSecondarySource queueId

/-- The calls that threads make between the creation of a loop and its end. -/
def Ordinary : QueueCall C → Prop
  | .createTaskQueue => False
  | .dispose _ => False
  | .disposeTasks _ => False
  | .setWakeable _ _ => False
  | _ => True

instance : DecidablePred (Ordinary (C := C))
  | .createTaskQueue | .dispose _ | .disposeTasks _ | .setWakeable _ _ => .isFalse id
  | .registerTask _ _ _ _ | .getNextTaskToRun _ _ _ | .addTaskObserver _ _ _
  | .removeTaskObserver _ _ | .merge _ _ | .unmerge _ _ | .pauseSecondarySource _
  | .resumeSecondarySource _ => .isTrue trivial

def queueIds : QueueCall C → List TaskQueueId
  | .createTaskQueue => []
  | .dispose queueId => [queueId]
  | .disposeTasks queueId => [queueId]
  | .registerTask queueId _ _ _ => [queueId]
  | .getNextTaskToRun _ queueId _ => [queueId]
  | .addTaskObserver queueId _ _ => [queueId]
  | .removeTaskObserver queueId _ => [queueId]
  | .setWakeable queueId _ => [queueId]
  | .merge owner subsumed => [owner, subsumed]
  | .unmerge owner subsumed => [owner, subsumed]
  | .pauseSecondarySource queueId => [queueId]
  | .resumeSecondarySource queueId => [queueId]

def Registered (s : MessageLoopTaskQueues C) (q : TaskQueueId) : Prop := (s.queueEntries q).isSome

def subsumedBy (s : MessageLoopTaskQueues C) (q : TaskQueueId) : Option TaskQueueId :=
  (s.queueEntries q).bind (·.subsumedBy)

def ownerOf (s : MessageLoopTaskQueues C) (q : TaskQueueId) : List TaskQueueId :=
  ((s.queueEntries q).map (·.ownerOf.elems)).getD []

def source (s : MessageLoopTaskQueues C) (q : TaskQueueId) : Option (TaskSource C) :=
  (s.queueEntries q).map (·.taskSource)

def wakeable (s : MessageLoopTaskQueues C) (q : TaskQueueId) : Option Wakeable :=
  (s.queueEntries q).bind (·.wakeable)

variable {s t : MessageLoopTaskQueues C} {q x : TaskQueueId} {e : TaskQueueEntry C}
  {f : TaskQueueEntry C → TaskQueueEntry C}

theorem registered_iff : s.Registered q ↔ ∃ e, s.queueEntries q = some e :=
  Option.isSome_iff_exists

theorem registered_congr (h : t.queueEntries q = s.queueEntries q) :
    t.Registered q ↔ s.Registered q := by
  rw [Registered, Registered, h]

theorem subsumedBy_eq (h : s.queueEntries q = some e) : s.subsumedBy q = e.subsumedBy := by
  simp [subsumedBy, h]

theorem ownerOf_eq (h : s.queueEntries q = some e) : s.ownerOf q = e.ownerOf.elems := by
  simp [ownerOf, h]

theorem mem_ownerOf (h : s.queueEntries q = some e) : x ∈ s.ownerOf q ↔ x ∈ e.ownerOf := by
  rw [ownerOf_eq h, Ordered.mem_def]

theorem source_eq (h : s.queueEntries q = some e) : s.source q = some e.taskSource := by
  simp [source, h]

theorem modifyEntry_queueEntries :
    (s.modifyEntry q f).queueEntries x =
      if x = q then (s.queueEntries q).map f else s.queueEntries x := by
  simp [modifyEntry, Function.update_apply]

@[simp] theorem registered_modifyEntry : (s.modifyEntry q f).Registered x ↔ s.Registered x := by
  unfold Registered
  rw [modifyEntry_queueEntries]
  split_ifs with h <;> simp [h]

theorem view_modifyEntry {β : Type*} (g : Option (TaskQueueEntry C) → β)
    (hf : ∀ e, g (some (f e)) = g (some e)) :
    g ((s.modifyEntry q f).queueEntries x) = g (s.queueEntries x) := by
  rw [modifyEntry_queueEntries]
  split_ifs with h
  · subst h
    cases s.queueEntries x with
    | none => rfl
    | some e => exact hf e
  · rfl

theorem subsumedBy_modifyEntry (hf : ∀ e, (f e).subsumedBy = e.subsumedBy) :
    (s.modifyEntry q f).subsumedBy x = s.subsumedBy x :=
  view_modifyEntry (Option.bind · TaskQueueEntry.subsumedBy) hf

theorem ownerOf_modifyEntry (hf : ∀ e, (f e).ownerOf = e.ownerOf) :
    (s.modifyEntry q f).ownerOf x = s.ownerOf x := by
  apply view_modifyEntry fun e => (e.map fun e => e.ownerOf.elems).getD []
  intro e
  exact congrArg Ordered.elems (hf e)

theorem source_modifyEntry (hf : ∀ e, (f e).taskSource = e.taskSource) :
    (s.modifyEntry q f).source x = s.source x :=
  view_modifyEntry (Option.map TaskQueueEntry.taskSource) fun e => congrArg some (hf e)

theorem wakeable_modifyEntry (hf : ∀ e, (f e).wakeable = e.wakeable) :
    (s.modifyEntry q f).wakeable x = s.wakeable x :=
  view_modifyEntry (Option.bind · TaskQueueEntry.wakeable) hf

theorem source_modifyEntry_map {g : TaskSource C → TaskSource C}
    (hf : ∀ e, (f e).taskSource = g e.taskSource) :
    (s.modifyEntry q f).source x = if x = q then (s.source q).map g else s.source x := by
  unfold source
  rw [modifyEntry_queueEntries]
  split_ifs with h
  · cases s.queueEntries q <;> simp [hf]
  · rfl

structure SameLinks (s t : MessageLoopTaskQueues C) : Prop where
  registered : ∀ q, t.Registered q ↔ s.Registered q
  subsumedBy : ∀ q, t.subsumedBy q = s.subsumedBy q
  ownerOf : ∀ q, t.ownerOf q = s.ownerOf q
  counter : t.taskQueueIdCounter = s.taskQueueIdCounter

theorem SameLinks.refl (s : MessageLoopTaskQueues C) : SameLinks s s :=
  ⟨fun _ => Iff.rfl, fun _ => rfl, fun _ => rfl, rfl⟩

theorem SameLinks.trans {u : MessageLoopTaskQueues C} (h : SameLinks s t) (h' : SameLinks t u) :
    SameLinks s u :=
  ⟨fun q => (h'.registered q).trans (h.registered q),
    fun q => (h'.subsumedBy q).trans (h.subsumedBy q),
    fun q => (h'.ownerOf q).trans (h.ownerOf q), h'.counter.trans h.counter⟩

theorem sameLinks_modifyEntry (hs : ∀ e, (f e).subsumedBy = e.subsumedBy)
    (ho : ∀ e, (f e).ownerOf = e.ownerOf) : SameLinks s (s.modifyEntry q f) :=
  ⟨fun _ => registered_modifyEntry, fun _ => subsumedBy_modifyEntry hs,
    fun _ => ownerOf_modifyEntry ho, rfl⟩

theorem sameLinks_rearm (time : TimePoint) : SameLinks s (s.rearm q time) :=
  sameLinks_modifyEntry (fun _ => rfl) fun _ => rfl

theorem sameLinks_addTask {task : DelayedTask C} : SameLinks s (s.addTask q task) :=
  have h : SameLinks { s with order := s.order + 1 } (s.addTask q task) :=
    sameLinks_modifyEntry (fun _ => rfl) fun _ => rfl
  ⟨h.registered, h.subsumedBy, h.ownerOf, h.counter⟩

theorem sameLinks_popTask {grade : TaskSourceGrade} {thread : ThreadId} {tls : TaskSourceGrade} :
    SameLinks s ((s.popTask q grade).setTls thread tls) :=
  have h : SameLinks s (s.popTask q grade) := sameLinks_modifyEntry (fun _ => rfl) fun _ => rfl
  ⟨h.registered, h.subsumedBy, h.ownerOf, h.counter⟩

theorem sameLinks_resume : SameLinks s (s.resume q) :=
  sameLinks_modifyEntry (fun _ => rfl) fun _ => rfl

@[simp] theorem source_rearm (time : TimePoint) : (s.rearm q time).source x = s.source x :=
  source_modifyEntry fun _ => rfl

theorem wakeUpIfPending_cases (h : s.wakeUpIfPending q = some t) :
    t = s ∨ ∃ time, s.getNextWakeTimeUnlocked q = some time ∧ t = s.rearm q time := by
  simp only [wakeUpIfPending, Option.bind_eq_bind, Option.bind_eq_some_iff] at h
  obtain ⟨pending, -, h⟩ := h
  split_ifs at h with hp
  · obtain ⟨time, ht, h⟩ := Option.bind_eq_some_iff.mp h
    obtain ⟨e, -, h⟩ := Option.bind_eq_some_iff.mp h
    exact .inr ⟨time, ht, (Option.some.inj h).symm⟩
  · exact .inl (Option.some.inj h).symm

theorem sameLinks_wakeUpIfPending (h : s.wakeUpIfPending q = some t) : SameLinks s t := by
  rcases wakeUpIfPending_cases h with rfl | ⟨time, -, rfl⟩
  · exact .refl _
  · exact sameLinks_rearm time

theorem source_wakeUpIfPending (h : s.wakeUpIfPending q = some t) (x : TaskQueueId) :
    t.source x = s.source x := by
  rcases wakeUpIfPending_cases h with rfl | ⟨time, -, rfl⟩
  · rfl
  · exact source_rearm time

end MessageLoopTaskQueues

end EnvironmentCheck
