import EnvironmentCheck.PendingTasks

namespace EnvironmentCheck

open Transition

variable {C : Type}

namespace MessageLoopTaskQueues

def callbacks (s : MessageLoopTaskQueues C) (queueId : TaskQueueId) : Option (List (Closure C)) := do
  let entry ← s.queueEntries queueId
  return entry.taskObservers.elems.map Prod.snd

def getObserversToNotify (s : MessageLoopTaskQueues C) (queueId : TaskQueueId) :
    Option (List (Closure C)) := do
  let entry ← s.queueEntries queueId
  if entry.subsumedBy ≠ none then return []
  else
    let observers ← s.callbacks queueId
    let subsumedObservers ← entry.ownerOf.elems.mapM s.callbacks
    return observers ++ subsumedObservers.flatten

end MessageLoopTaskQueues

inductive FlushType
  | kSingle
  | kAll
  deriving DecidableEq

/-- A task that was taken in the state `found`. When it returned, `left` was the state, and after
that the callbacks were called. -/
structure Turn (C : Type) where
  found : MessageLoopTaskQueues C
  invocation : C
  left : MessageLoopTaskQueues C
  notified : List C

inductive FlushPhase (C : Type)
  | taking
  | running (found : MessageLoopTaskQueues C) (invocation : C)
  | notifying (turn : Turn C) (observers : List (Closure C))
  | returned (found : Option (MessageLoopTaskQueues C))

/-- A call of `FlushTasks` with the state of the queues, which anybody may change at any moment, and
the turns it has finished. -/
structure FlushTasks (C : Type) where
  queues : MessageLoopTaskQueues C
  thread : ThreadId
  queueId : TaskQueueId
  type : FlushType
  now : TimePoint
  phase : FlushPhase C
  turns : List (Turn C)

inductive FlushEvent (C : Type)
  | call (c : QueueCall C)
  | take
  | taskReturns
  | notify
  | observersDone

namespace FlushTasks

open MessageLoopTaskQueues

def start (queues : MessageLoopTaskQueues C) (thread : ThreadId) (queueId : TaskQueueId)
    (type : FlushType) (now : TimePoint) : FlushTasks C :=
  ⟨queues, thread, queueId, type, now, .taking, []⟩

def take (s : FlushTasks C) : Option (FlushTasks C) := do
  match ← s.queues.getNextTaskToRun s.thread s.queueId s.now with
  | (none, queues) => return { s with queues := queues, phase := .returned (some s.queues) }
  | (some invocation, queues) =>
    return { s with queues := queues, phase := .running s.queues invocation }

def finishTurn (s : FlushTasks C) (turn : Turn C) : FlushTasks C :=
  { s with
    phase := if s.type = .kSingle then .returned none else .taking
    turns := s.turns ++ [turn] }

/-- `none` for what the flushing thread is not about to do, and for the call of a null closure. -/
def next (s : FlushTasks C) : FlushEvent C → Option (FlushTasks C)
  | .call c => (s.queues.next c).map fun queues => { s with queues := queues }
  | .take =>
    match s.phase with
    | .taking => s.take
    | _ => none
  | .taskReturns =>
    match s.phase with
    | .running found invocation =>
      (s.queues.getObserversToNotify s.queueId).map fun observers =>
        { s with phase := .notifying ⟨found, invocation, s.queues, []⟩ observers }
    | _ => none
  | .notify =>
    match s.phase with
    | .notifying turn (some observer :: rest) =>
      some { s with phase := .notifying { turn with notified := turn.notified ++ [observer] } rest }
    | _ => none
  | .observersDone =>
    match s.phase with
    | .notifying turn [] => some (s.finishTurn turn)
    | _ => none

/-- Tasks with null closures are left out. -/
def NonNull : QueueCall C → Prop
  | .registerTask _ none _ _ => False
  | _ => True

instance : DecidablePred (NonNull (C := C))
  | .registerTask _ none _ _ => .isFalse id
  | .registerTask _ (some _) _ _ | .createTaskQueue | .dispose _ | .disposeTasks _
  | .getNextTaskToRun _ _ _ | .addTaskObserver _ _ _ | .removeTaskObserver _ _ | .setWakeable _ _
  | .merge _ _ | .unmerge _ _ | .pauseSecondarySource _ | .resumeSecondarySource _ => .isTrue trivial

def Admits (s : MessageLoopTaskQueues C) (c : QueueCall C) : Prop := s.Balanced c ∧ NonNull c

instance (s : MessageLoopTaskQueues C) (c : QueueCall C) : Decidable (Admits s c) :=
  inferInstanceAs (Decidable (_ ∧ _))

def Orderly (s : FlushTasks C) : FlushEvent C → Prop
  | .call c => Admits s.queues c
  | _ => True

instance (s : FlushTasks C) : DecidablePred s.Orderly
  | .call c => inferInstanceAs (Decidable (Admits s.queues c))
  | .take | .taskReturns | .notify | .observersDone => .isTrue trivial

end FlushTasks

namespace MessageLoopTaskQueues

variable {s t : MessageLoopTaskQueues C} {F : OwnerForest TaskQueueId} {q x : TaskQueueId}

def observersAt (s : MessageLoopTaskQueues C) (x : TaskQueueId) : List (ℤ × Closure C) :=
  ((s.queueEntries x).map fun e => e.taskObservers.elems).getD []

/-- What a flush of `q` notifies, as queue, key and callback. -/
def observers (s : MessageLoopTaskQueues C) (q : TaskQueueId) :
    List (TaskQueueId × ℤ × Closure C) :=
  (q :: s.ownerOf q).flatMap fun x => (s.observersAt x).map (x, ·)

theorem mem_observers {v : TaskQueueId × ℤ × Closure C} :
    v ∈ s.observers q ↔ (v.1 = q ∨ v.1 ∈ s.ownerOf q) ∧ v.2 ∈ s.observersAt v.1 := by
  rw [observers, List.mem_flatMap]
  constructor
  · rintro ⟨x, hx, hv⟩
    obtain ⟨w, hw, rfl⟩ := List.mem_map.mp hv
    exact ⟨List.mem_cons.mp hx, hw⟩
  · rintro ⟨hx, hv⟩
    exact ⟨v.1, List.mem_cons.mpr hx, List.mem_map.mpr ⟨v.2, hv, rfl⟩⟩

theorem nodup_keys_observersAt (s : MessageLoopTaskQueues C) (x : TaskQueueId) :
    ((s.observersAt x).map fun w => (x, w.1)).Nodup := by
  unfold observersAt
  cases s.queueEntries x with
  | none => exact List.nodup_nil
  | some e =>
    rw [Option.map_some, Option.getD_some, List.Nodup, List.pairwise_map]
    refine e.taskObservers.ascending.imp ?_
    intro v w hlt heq
    exact hlt.ne (Prod.mk.inj heq).2

theorem nodup_observers (hF : Represents s F) (q : TaskQueueId) :
    ((s.observers q).map fun v => (v.1, v.2.1)).Nodup := by
  rw [observers, List.map_flatMap, List.nodup_flatMap]
  constructor
  · intro x _
    rw [List.map_map]
    exact s.nodup_keys_observersAt x
  · refine (hF.nodup_group q).imp ?_
    intro x y hne v hx hy
    obtain ⟨w, hw, rfl⟩ := List.mem_map.mp hx
    obtain ⟨w', hw', heq⟩ := List.mem_map.mp hy
    obtain ⟨u, -, rfl⟩ := List.mem_map.mp hw
    obtain ⟨u', -, rfl⟩ := List.mem_map.mp hw'
    exact hne (Prod.mk.inj heq).1.symm

theorem callbacks_eq (hq : s.Registered q) :
    s.callbacks q = some ((s.observersAt q).map Prod.snd) := by
  obtain ⟨e, he⟩ := registered_iff.mp hq
  simp [callbacks, observersAt, he]

theorem mapM_callbacks {ids : List TaskQueueId} (h : ∀ x ∈ ids, s.Registered x) :
    ids.mapM s.callbacks = some (ids.map fun x => (s.observersAt x).map Prod.snd) := by
  induction ids with
  | nil => rfl
  | cons x ids ih =>
    rw [List.mapM_cons, callbacks_eq (h x List.mem_cons_self),
      ih fun y hy => h y (List.mem_cons_of_mem _ hy)]
    rfl

theorem getObserversToNotify_eq (hl : s.Linked) (hq : s.Registered q) :
    s.getObserversToNotify q =
      some (if s.subsumedBy q = none then (s.observers q).map fun v => v.2.2 else []) := by
  obtain ⟨e, he⟩ := registered_iff.mp hq
  have hsub := subsumedBy_eq he
  simp only [getObserversToNotify, he, Option.bind_eq_bind, Option.bind_some]
  split_ifs with hs hnone hnone
  · exact absurd (hsub.symm.trans hnone) hs
  · rfl
  · rw [callbacks_eq hq, ← ownerOf_eq he, mapM_callbacks (hl q), observers, List.map_flatMap,
      List.flatMap_cons, List.flatMap_def]
    simp [Function.comp_def]
  · exact absurd (hsub.trans (not_not.mp hs)) hnone

structure Notifies (s : MessageLoopTaskQueues C) (q : TaskQueueId) (called : List (Closure C)) :
    Prop where
  nobody : s.subsumedBy q ≠ none → called = []
  once : s.subsumedBy q = none → called = (s.observers q).map fun v => v.2.2
  distinct : ((s.observers q).map fun v => (v.1, v.2.1)).Nodup

theorem notifies_getObserversToNotify (hF : Represents s F) {called : List (Closure C)}
    (h : s.getObserversToNotify q = some called) : Notifies s q called := by
  have hq : s.Registered q := by
    obtain ⟨e, he, -⟩ := Option.bind_eq_some_iff.mp h
    exact registered_iff.mpr ⟨e, he⟩
  rw [getObserversToNotify_eq hF.linked hq, Option.some.injEq] at h
  subst h
  exact ⟨fun hs => if_neg hs, fun hs => if_pos hs, nodup_observers hF q⟩

def Takes (s : MessageLoopTaskQueues C) (q : TaskQueueId) (now : TimePoint) (invocation : C) : Prop :=
  ∃ v, s.DueForemost q now v ∧ v.2.task = some invocation

def NothingDue (s : MessageLoopTaskQueues C) (q : TaskQueueId) (now : TimePoint) : Prop :=
  s.subsumedBy q = none → ∀ v ∈ s.visible q, now < v.2.targetTime

/-- What the runs that leave null closures out keep. -/
structure Sound (s : MessageLoopTaskQueues C) : Prop where
  forest : ∃ F, Represents s F
  sources : s.SoundSources
  tasks : ∀ x, ∀ u ∈ s.pendingTasks x, u.task ≠ none

theorem tasks_next (hF : Represents s F) (hid : s.SourcesNamed) {c : QueueCall C}
    (hc : FlushTasks.NonNull c) (hn : s.next c = some t)
    (h : ∀ x, ∀ u ∈ s.pendingTasks x, u.task ≠ none) : ∀ x, ∀ u ∈ t.pendingTasks x, u.task ≠ none := by
  intro x u hu hnull
  obtain hold | rfl := mem_pendingTasks_next hF hid hn hu
  · exact h x u hold hnull
  · rw [hnull] at hc
    exact hc

theorem sound_reachable {thread₀ : ThreadId}
    (hr : Reachable next FlushTasks.Admits (create (C := C) thread₀) s) : s.Sound := by
  have hforest : ∀ {u}, Reachable next FlushTasks.Admits (create (C := C) thread₀) u →
      ∃ F, Represents u F := fun hu => represents_reachable (fun _ _ hc => hc.1.1) hu
  have hsources : ∀ {u}, Reachable next FlushTasks.Admits (create (C := C) thread₀) u →
      u.SoundSources := fun hu => soundSources_reachable (fun _ _ hc => hc.1.2) hu
  refine ⟨hforest hr, hsources hr, ?_⟩
  refine Reachable.invariant (p := fun u => ∀ x, ∀ task ∈ u.pendingTasks x, task.task ≠ none) ?_ ?_ hr
  · intro x u hu
    rw [pendingTasks_none rfl] at hu
    cases hu
  · intro u c u' hu hkept hc hn
    obtain ⟨F, hF⟩ := hforest hu
    exact tasks_next hF (hsources hu).taskQueueId hc.2 hn hkept

theorem takes_getNextTaskToRun {thread : ThreadId} {now : TimePoint} {invocation : C} (h : s.Sound)
    (hg : s.getNextTaskToRun thread q now = some (some invocation, t)) : s.Takes q now invocation := by
  obtain ⟨F, hF⟩ := h.forest
  obtain ⟨hnone, -⟩ | ⟨top, hp, htop, hdue, htask, -⟩ :=
    getNextTaskToRun_pops hF h.sources.taskQueueId hg
  · cases hnone
  · have hq := registered_of_hasPendingTasksUnlocked hp
    have hsub := ((hasPendingTasksUnlocked_iff hF.linked h.sources hq).mp hp).1
    have hforemost := peekNextTaskUnlocked_foremost hF.linked h.sources hq htop
    exact ⟨(top.taskQueueId, top.task), ⟨hsub, hforemost, hdue⟩, htask.symm⟩

theorem registered_of_getNextTaskToRun {thread : ThreadId} {now : TimePoint} {c : Closure C}
    (hg : s.getNextTaskToRun thread q now = some (c, t)) : s.Registered q := by
  obtain ⟨b, hp, -⟩ := Option.bind_eq_some_iff.mp hg
  obtain ⟨e, he, -⟩ := Option.bind_eq_some_iff.mp hp
  exact registered_iff.mpr ⟨e, he⟩

theorem nothingDue_getNextTaskToRun {thread : ThreadId} {now : TimePoint} (h : s.Sound)
    (hg : s.getNextTaskToRun thread q now = some (none, t)) : s.NothingDue q now := by
  obtain ⟨F, hF⟩ := h.forest
  have hq := registered_of_getNextTaskToRun hg
  intro hsub v hv
  obtain ⟨-, -, hlate⟩ | ⟨top, -, -, -, hnull, -, hpop⟩ :=
    getNextTaskToRun_pops hF h.sources.taskQueueId hg
  · obtain ⟨top, htop, hlt⟩ :=
      hlate ((hasPendingTasksUnlocked_iff hF.linked h.sources hq).mpr ⟨hsub, v, hv⟩)
    have hleast := (peekNextTaskUnlocked_foremost hF.linked h.sources hq htop).least v hv
    exact hlt.trans_le (DelayedTask.targetTime_le_of_key_le hleast)
  · exact absurd hnull.symm (h.tasks _ _ (hpop.perm.mem_iff.mpr List.mem_cons_self))

end MessageLoopTaskQueues

structure Turn.Kept (turn : Turn C) (q : TaskQueueId) (now : TimePoint) : Prop where
  taken : turn.found.Takes q now turn.invocation
  notified : turn.left.Notifies q (turn.notified.map some)

namespace FlushTasks

open MessageLoopTaskQueues

variable {s t : FlushTasks C} {e : FlushEvent C} {queues : MessageLoopTaskQueues C}
  {thread thread₀ : ThreadId} {queueId : TaskQueueId} {type : FlushType} {now : TimePoint}

def begun : FlushPhase C → ℕ
  | .running _ _ => 1
  | .notifying _ _ => 1
  | _ => 0

/-- Of a flush of `queueId` that saw the time `now` when it was called. -/
structure Contract (s : FlushTasks C) (queueId : TaskQueueId) (type : FlushType) (now : TimePoint) :
    Prop where
  same : s.queueId = queueId ∧ s.type = type ∧ s.now = now
  turns : ∀ turn ∈ s.turns, turn.Kept queueId now
  running : ∀ found invocation, s.phase = .running found invocation →
    found.Takes queueId now invocation
  notifying : ∀ turn rest, s.phase = .notifying turn rest →
    turn.found.Takes queueId now turn.invocation ∧
      turn.left.Notifies queueId (turn.notified.map some ++ rest)
  single : type = .kSingle → s.turns.length + begun s.phase ≤ 1 ∧ (s.phase = .taking → s.turns = [])
  all : type = .kAll → ∀ found, s.phase = .returned found →
    ∃ u, found = some u ∧ u.NothingDue queueId now

theorem contract_start : (start queues thread queueId type now).Contract queueId type now where
  same := ⟨rfl, rfl, rfl⟩
  turns := by simp [start]
  running := by simp [start]
  notifying := by simp [start]
  single _ := ⟨Nat.zero_le _, fun _ => rfl⟩
  all := by simp [start]

theorem contract_call (h : s.Contract queueId type now) (queues : MessageLoopTaskQueues C) :
    ({ s with queues := queues } : FlushTasks C).Contract queueId type now where
  same := h.same
  turns := h.turns
  running := h.running
  notifying := h.notifying
  single := h.single
  all := h.all

/-- What a step of the flush, or of anybody else, does. -/
inductive Steps (s : FlushTasks C) : FlushEvent C → FlushTasks C → Prop
  | call {c : QueueCall C} {u : MessageLoopTaskQueues C} (hcall : s.queues.next c = some u) :
    Steps s (.call c) { s with queues := u }
  | findsNothing {u : MessageLoopTaskQueues C} (hphase : s.phase = .taking)
    (hg : s.queues.getNextTaskToRun s.thread s.queueId s.now = some (none, u)) :
    Steps s .take { s with queues := u, phase := .returned (some s.queues) }
  | take {invocation : C} {u : MessageLoopTaskQueues C} (hphase : s.phase = .taking)
    (hg : s.queues.getNextTaskToRun s.thread s.queueId s.now = some (some invocation, u)) :
    Steps s .take { s with queues := u, phase := .running s.queues invocation }
  | taskReturns {found : MessageLoopTaskQueues C} {invocation : C} {observers : List (Closure C)}
    (hphase : s.phase = .running found invocation)
    (ho : s.queues.getObserversToNotify s.queueId = some observers) :
    Steps s .taskReturns { s with phase := .notifying ⟨found, invocation, s.queues, []⟩ observers }
  | notify {turn : Turn C} {observer : C} {rest : List (Closure C)}
    (hphase : s.phase = .notifying turn (some observer :: rest)) :
    Steps s .notify
      { s with phase := .notifying { turn with notified := turn.notified ++ [observer] } rest }
  | observersDone {turn : Turn C} (hphase : s.phase = .notifying turn []) :
    Steps s .observersDone (s.finishTurn turn)

theorem steps_of_take (hphase : s.phase = .taking) (h : s.take = some t) : Steps s .take t := by
  obtain ⟨⟨c, u⟩, hg, h⟩ := Option.bind_eq_some_iff.mp h
  cases c with
  | none =>
    cases h
    exact .findsNothing hphase hg
  | some invocation =>
    cases h
    exact .take hphase hg

theorem steps_of_next (hn : s.next e = some t) : Steps s e t := by
  cases e with
  | call c =>
    obtain ⟨u, hcall, rfl⟩ := Option.map_eq_some_iff.mp hn
    exact .call hcall
  | take =>
    simp only [next] at hn
    split at hn
    · next hphase => exact steps_of_take hphase hn
    · cases hn
  | taskReturns =>
    simp only [next] at hn
    split at hn
    · next found invocation hphase =>
      obtain ⟨observers, ho, rfl⟩ := Option.map_eq_some_iff.mp hn
      exact .taskReturns hphase ho
    · cases hn
  | notify =>
    simp only [next] at hn
    split at hn
    · next turn observer rest hphase =>
      cases hn
      exact .notify hphase
    · cases hn
  | observersDone =>
    simp only [next] at hn
    split at hn
    · next turn hphase =>
      cases hn
      exact .observersDone hphase
    · cases hn

theorem contract_findsNothing {u : MessageLoopTaskQueues C} (h : s.Contract queueId type now)
    (hs : s.queues.Sound) (hphase : s.phase = .taking)
    (hg : s.queues.getNextTaskToRun s.thread s.queueId s.now = some (none, u)) :
    ({ s with queues := u, phase := .returned (some s.queues) } :
      FlushTasks C).Contract queueId type now := by
  rw [h.same.1, h.same.2.2] at hg
  have hdue := nothingDue_getNextTaskToRun hs hg
  constructor
  · exact h.same
  · exact h.turns
  · simp
  · simp
  · intro hsingle
    simp [begun, (h.single hsingle).2 hphase]
  · rintro - found hfound
    cases hfound
    exact ⟨s.queues, rfl, hdue⟩

theorem contract_take {invocation : C} {u : MessageLoopTaskQueues C}
    (h : s.Contract queueId type now) (hs : s.queues.Sound) (hphase : s.phase = .taking)
    (hg : s.queues.getNextTaskToRun s.thread s.queueId s.now = some (some invocation, u)) :
    ({ s with queues := u, phase := .running s.queues invocation } :
      FlushTasks C).Contract queueId type now := by
  rw [h.same.1, h.same.2.2] at hg
  have htakes := takes_getNextTaskToRun hs hg
  constructor
  · exact h.same
  · exact h.turns
  · rintro found invocation' hrunning
    cases hrunning
    exact htakes
  · simp
  · intro hsingle
    simp [begun, (h.single hsingle).2 hphase]
  · simp

theorem contract_taskReturns {found : MessageLoopTaskQueues C} {invocation : C}
    {observers : List (Closure C)} (h : s.Contract queueId type now) (hs : s.queues.Sound)
    (hphase : s.phase = .running found invocation)
    (ho : s.queues.getObserversToNotify s.queueId = some observers) :
    ({ s with phase := .notifying ⟨found, invocation, s.queues, []⟩ observers } :
      FlushTasks C).Contract queueId type now := by
  obtain ⟨F, hF⟩ := hs.forest
  have hnotifies := notifies_getObserversToNotify hF ho
  rw [h.same.1] at hnotifies
  constructor
  · exact h.same
  · exact h.turns
  · simp
  · rintro turn rest hnotifying
    cases hnotifying
    exact ⟨h.running found invocation hphase, hnotifies⟩
  · intro hsingle
    have hcount := (h.single hsingle).1
    rw [hphase] at hcount
    exact ⟨hcount, fun hno => nomatch hno⟩
  · simp

theorem contract_notify {turn : Turn C} {observer : C} {rest : List (Closure C)}
    (h : s.Contract queueId type now) (hphase : s.phase = .notifying turn (some observer :: rest)) :
    ({ s with phase := .notifying { turn with notified := turn.notified ++ [observer] } rest } :
      FlushTasks C).Contract queueId type now := by
  obtain ⟨htakes, hnotifies⟩ := h.notifying turn _ hphase
  constructor
  · exact h.same
  · exact h.turns
  · simp
  · rintro turn' rest' hnotifying
    cases hnotifying
    refine ⟨htakes, ?_⟩
    simpa using hnotifies
  · intro hsingle
    have hcount := (h.single hsingle).1
    rw [hphase] at hcount
    exact ⟨hcount, fun hno => nomatch hno⟩
  · simp

theorem contract_finishTurn {turn : Turn C} (h : s.Contract queueId type now)
    (hphase : s.phase = .notifying turn []) : (s.finishTurn turn).Contract queueId type now := by
  obtain ⟨htakes, hnotifies⟩ := h.notifying turn _ hphase
  rw [List.append_nil] at hnotifies
  constructor
  · exact h.same
  · intro turn' hturn
    obtain hold | hnew := List.mem_append.mp hturn
    · exact h.turns turn' hold
    · rw [List.mem_singleton.mp hnew]
      exact ⟨htakes, hnotifies⟩
  · intro found invocation hrunning
    simp only [finishTurn] at hrunning
    split_ifs at hrunning
  · intro turn' rest hnotifying
    simp only [finishTurn] at hnotifying
    split_ifs at hnotifying
  · intro hsingle
    have hcount := (h.single hsingle).1
    rw [hphase] at hcount
    have htype : s.type = .kSingle := h.same.2.1.trans hsingle
    simp only [finishTurn, htype, ↓reduceIte, begun, List.length_append, List.length_singleton]
    exact ⟨hcount, fun hno => nomatch hno⟩
  · intro hall found hreturned
    have htype : s.type = .kAll := h.same.2.1.trans hall
    simp [finishTurn, htype] at hreturned

theorem contract_next (h : s.Contract queueId type now) (hs : s.queues.Sound)
    (hn : s.next e = some t) : t.Contract queueId type now := by
  cases steps_of_next hn with
  | call _ => exact contract_call h _
  | findsNothing hphase hg => exact contract_findsNothing h hs hphase hg
  | take hphase hg => exact contract_take h hs hphase hg
  | taskReturns hphase ho => exact contract_taskReturns h hs hphase ho
  | notify hphase => exact contract_notify h hphase
  | observersDone hphase => exact contract_finishTurn h hphase

theorem reachable_queues
    (hq : Reachable MessageLoopTaskQueues.next Admits (create thread₀) queues)
    (h : Reachable next Orderly (start queues thread queueId type now) s) :
    Reachable MessageLoopTaskQueues.next Admits (create thread₀) s.queues := by
  refine Reachable.invariant
    (p := fun s => Reachable MessageLoopTaskQueues.next Admits (create thread₀) s.queues) hq ?_ h
  intro s e t _ hs hc hn
  have htakes : ∀ {c u}, s.queues.getNextTaskToRun s.thread s.queueId s.now = some (c, u) →
      Reachable MessageLoopTaskQueues.next Admits (create thread₀) u := by
    intro c u hg
    have hadmits : Admits s.queues (.getNextTaskToRun s.thread s.queueId s.now) :=
      ⟨⟨trivial, trivial⟩, trivial⟩
    exact hs.step hadmits (Option.map_eq_some_iff.mpr ⟨_, hg, rfl⟩)
  cases steps_of_next hn with
  | call hcall => exact hs.step hc hcall
  | findsNothing _ hg => exact htakes hg
  | take _ hg => exact htakes hg
  | taskReturns _ _ => exact hs
  | notify _ => exact hs
  | observersDone _ => exact hs

/-- The flushing thread has returned, is about to call a null closure or can go on. -/
def Progresses (s : FlushTasks C) : Prop :=
  (∃ found, s.phase = .returned found) ∨ (∃ turn rest, s.phase = .notifying turn (none :: rest)) ∨
    ∃ e t, (∀ c, e ≠ .call c) ∧ s.next e = some t

theorem progresses (hs : s.queues.Sound) (hq : s.queues.Registered s.queueId) : s.Progresses := by
  obtain ⟨F, hF⟩ := hs.forest
  cases hphase : s.phase with
  | taking =>
    obtain ⟨⟨c, u⟩, hg⟩ := Option.isSome_iff_exists.mp
      (getNextTaskToRun_isSome hF.linked hs.sources.taskQueueId hq s.thread s.now)
    refine .inr (.inr ⟨.take, ?_⟩)
    cases c with
    | none => exact ⟨_, nofun, by simp only [next, hphase, take, hg]; rfl⟩
    | some invocation => exact ⟨_, nofun, by simp only [next, hphase, take, hg]; rfl⟩
  | running found invocation =>
    have ho := getObserversToNotify_eq hF.linked hq
    exact .inr (.inr ⟨.taskReturns, _, nofun, by simp only [next, hphase, ho]; rfl⟩)
  | notifying turn rest =>
    cases rest with
    | nil => exact .inr (.inr ⟨.observersDone, _, nofun, by simp only [next, hphase]; rfl⟩)
    | cons observer rest =>
      cases observer with
      | none => exact .inr (.inl ⟨turn, rest, hphase⟩)
      | some observer => exact .inr (.inr ⟨.notify, _, nofun, by simp only [next, hphase]; rfl⟩)
  | returned found => exact .inl ⟨found, hphase⟩

theorem flushTasks_contract
    (hq : Reachable MessageLoopTaskQueues.next Admits (create thread₀) queues)
    (h : Reachable next Orderly (start queues thread queueId type now) s) :
    s.Contract queueId type now ∧ (s.queues.Registered queueId → s.Progresses) := by
  have hcontract : s.Contract queueId type now := by
    refine Reachable.invariant (p := fun s => s.Contract queueId type now) contract_start ?_ h
    intro s e t hs hkept _ hn
    exact contract_next hkept (sound_reachable (reachable_queues hq hs)) hn
  refine ⟨hcontract, fun hreg => ?_⟩
  rw [← hcontract.same.1] at hreg
  exact progresses (sound_reachable (reachable_queues hq h)) hreg

def observedQueue : List (QueueCall ℕ) :=
  [.createTaskQueue, .registerTask 0 (some 10) ⟨3⟩ .kUnspecified, .addTaskObserver 0 1 (some 20)]

def observedFlush : List (FlushEvent ℕ) :=
  [.take, .call (.registerTask 0 (some 11) ⟨9⟩ .kUnspecified), .taskReturns,
    .call (.removeTaskObserver 0 1), .notify, .observersDone, .take]

theorem flushTasks_contract_observedFlush : ∃ queues s,
    run MessageLoopTaskQueues.next (create 0) observedQueue = some queues ∧
      run next (start queues 7 0 .kAll ⟨4⟩) observedFlush = some s ∧
      s.turns.map (fun turn => (turn.invocation, turn.notified)) = [(10, [20])] ∧
      s.Contract 0 .kAll ⟨4⟩ := by
  have hm : Meets MessageLoopTaskQueues.next Admits (create 0) observedQueue := by decide
  have hq : Reachable MessageLoopTaskQueues.next Admits (create 0)
      ((run MessageLoopTaskQueues.next (create 0) observedQueue).get rfl) := ⟨_, hm, rfl⟩
  have hf : Meets next Orderly (start ((run MessageLoopTaskQueues.next (create 0) observedQueue).get rfl)
      7 0 .kAll ⟨4⟩) observedFlush := by decide
  exact ⟨_, _, rfl, rfl, rfl, (flushTasks_contract hq ⟨_, hf, rfl⟩).1⟩

end FlushTasks

end EnvironmentCheck
