import EnvironmentCheck.LoopLifetimes
import EnvironmentCheck.PendingTasks

namespace EnvironmentCheck

open MessageLoopTaskQueues Transition

variable {C : Type}

namespace MessageLoopTaskQueues

variable {s t : MessageLoopTaskQueues C} {F : OwnerForest TaskQueueId} {q x : TaskQueueId}

structure Alone (s : MessageLoopTaskQueues C) (q : TaskQueueId) : Prop where
  registered : s.Registered q
  subsumedBy : s.subsumedBy q = none
  ownerOf : s.ownerOf q = []

theorem Alone.sameLinks (h : s.Alone q) (hl : SameLinks s t) : t.Alone q where
  registered := (hl.registered q).mpr h.registered
  subsumedBy := (hl.subsumedBy q).trans h.subsumedBy
  ownerOf := (hl.ownerOf q).trans h.ownerOf

theorem Alone.not_mem_ownerOf (h : s.Alone q) (hF : Represents s F) (o : TaskQueueId) :
    q ∉ s.ownerOf o := by
  intro hmem
  have howns : F.Owns o q := (hF.ownerOf o q).mp hmem
  have hsub := h.subsumedBy
  rw [hF.owner, show F.owner q = some o from howns] at hsub
  cases hsub

theorem alone_setMerged {o : TaskQueueId} (h : s.Alone q) (hne : o ≠ x) (ho : s.Registered o)
    (hx : s.Registered x) (hqo : q ≠ o) (hqx : q ≠ x) : (s.setMerged o x).Alone q where
  registered := registered_setMerged.mpr h.registered
  subsumedBy := by rw [subsumedBy_setMerged hne hx, if_neg hqx, h.subsumedBy]
  ownerOf := by
    rw [List.eq_nil_iff_forall_not_mem]
    intro y hy
    rw [mem_ownerOf_setMerged hne ho, h.ownerOf] at hy
    rcases hy with hy | hy
    · cases hy
    · exact hqo hy.1

theorem alone_setUnmerged {o : TaskQueueId} (h : s.Alone q) (hne : o ≠ x) (hqx : q ≠ x) :
    (s.setUnmerged o x).Alone q where
  registered := registered_setUnmerged.mpr h.registered
  subsumedBy := by rw [subsumedBy_setUnmerged hne, if_neg hqx, h.subsumedBy]
  ownerOf := by
    rw [List.eq_nil_iff_forall_not_mem]
    intro y hy
    rw [mem_ownerOf_setUnmerged hne, h.ownerOf] at hy
    cases hy.1

theorem alone_next (hF : Represents s F) (hid : s.SourcesNamed) (h : s.Alone q) {c : QueueCall C}
    (hc : Ordinary c) (hq : q ∉ queueIds c) (hn : s.next c = some t) :
    t.Alone q ∧ t.source q = s.source q := by
  cases c with
  | createTaskQueue => exact hc.elim
  | dispose q' => exact hc.elim
  | disposeTasks q' => exact hc.elim
  | setWakeable q' wakeable => exact hc.elim
  | registerTask q' task time grade =>
    refine ⟨h.sameLinks (sameLinks_registerTask hn), ?_⟩
    rw [source_registerTask hn, if_neg]
    simpa [queueIds] using hq
  | getNextTaskToRun thread q' time =>
    obtain ⟨⟨b, u⟩, hg, rfl⟩ := Option.map_eq_some_iff.mp hn
    refine ⟨h.sameLinks (sameLinks_getNextTaskToRun hg), ?_⟩
    rcases source_getNextTaskToRun hg with ⟨-, hs, -⟩ | ⟨top, hp, htop, -, -, hs⟩
    · exact hs q
    · have hreg : s.Registered q' := registered_of_hasPendingTasksUnlocked hp
      obtain ⟨top', src, htop', -, -, hmem⟩ := peekNextTaskUnlocked_some hF.linked hid hreg hp
      obtain rfl : top = top' := Option.some.inj (htop.symm.trans htop')
      rw [hs, if_neg]
      rintro rfl
      rcases hmem with hmem | hmem
      · exact hq (by simp [queueIds, hmem])
      · exact h.not_mem_ownerOf hF q' hmem
  | addTaskObserver q' key callback =>
    rw [addTaskObserver_cases hn]
    exact ⟨h.sameLinks (sameLinks_modifyEntry (fun _ => rfl) fun _ => rfl),
      source_modifyEntry fun _ => rfl⟩
  | removeTaskObserver q' key =>
    rw [removeTaskObserver_cases hn]
    exact ⟨h.sameLinks (sameLinks_modifyEntry (fun _ => rfl) fun _ => rfl),
      source_modifyEntry fun _ => rfl⟩
  | merge o x =>
    obtain ⟨⟨b, u⟩, hm, rfl⟩ := Option.map_eq_some_iff.mp hn
    refine ⟨?_, source_merge hm⟩
    simp only [queueIds, List.mem_cons, List.not_mem_nil, or_false, not_or] at hq
    rcases merge_cases hm with ⟨rfl, -⟩ | ⟨-, hne, ho, hx, -, -, -, hw⟩
    · exact h
    · exact (alone_setMerged h hne ho hx hq.1 hq.2).sameLinks (sameLinks_wakeUpIfPending hw)
  | unmerge o x =>
    obtain ⟨⟨b, u⟩, hm, rfl⟩ := Option.map_eq_some_iff.mp hn
    refine ⟨?_, source_unmerge hm⟩
    simp only [queueIds, List.mem_cons, List.not_mem_nil, or_false, not_or] at hq
    rcases unmerge_cases hm with ⟨-, rfl⟩ | ⟨-, -, hmem, v, hv, hw⟩
    · exact h
    · have hne : o ≠ x := fun he => F.not_owns_self x (he ▸ (hF.ownerOf o x).mp hmem)
      have hlinks := (sameLinks_wakeUpIfPending hv).trans (sameLinks_wakeUpIfPending hw)
      exact (alone_setUnmerged h hne hq.2).sameLinks hlinks
  | pauseSecondarySource q' =>
    refine ⟨?_, ?_⟩
    · rw [(pauseSecondarySource_cases hn).2]
      exact h.sameLinks (sameLinks_modifyEntry (fun _ => rfl) fun _ => rfl)
    · rw [source_pauseSecondarySource hn, if_neg]
      simpa [queueIds] using hq
  | resumeSecondarySource q' =>
    refine ⟨?_, ?_⟩
    · exact h.sameLinks (sameLinks_resumeSecondarySource hn)
    · rw [source_resumeSecondarySource hn, if_neg]
      simpa [queueIds] using hq

end MessageLoopTaskQueues

/-- Where the loop's thread stands in `DoRun`; `now` is what `FlushTasks` read. -/
inductive DoRunPhase where
  | notStarted
  | running
  | stopped
  | flushing (now : TimePoint)
  | disposing
  | returned
  deriving DecidableEq

/-- A loop on its queue, and the calls of `PostTask` that have found `terminated_` unset and not
yet registered their task. -/
structure MessageLoopImpl (C : Type) where
  queues : MessageLoopTaskQueues C
  queueId : TaskQueueId
  terminated : Bool
  phase : DoRunPhase
  posting : List (Closure C × TimePoint)

inductive ShutdownEvent (C : Type) where
  | postTask (task : Closure C) (targetTime : TimePoint)
  | registerTask (poster : ℕ)
  | doTerminate
  | testTerminated
  | runTask (thread : ThreadId) (now : TimePoint)
  | runReturns
  | setTerminated (now : TimePoint)
  | flushTask (thread : ThreadId)
  | disposeTasks
  | elsewhere (c : QueueCall C)

namespace MessageLoopImpl

def create (queues : MessageLoopTaskQueues C) : Option (MessageLoopImpl C) :=
  queues.createLoop.map fun created =>
    ⟨created, queues.taskQueueIdCounter, false, .notStarted, []⟩

def next (l : MessageLoopImpl C) : ShutdownEvent C → Option (MessageLoopImpl C)
  | .postTask task targetTime =>
    if l.terminated then some l
    else some { l with posting := l.posting ++ [(task, targetTime)] }
  | .registerTask poster =>
    (l.posting[poster]?).bind fun post =>
      (l.queues.registerTask l.queueId post.1 post.2 .kUnspecified).map fun queues =>
        { l with queues := queues, posting := l.posting.eraseIdx poster }
  | .doTerminate => some { l with terminated := true }
  | .testTerminated =>
    if l.phase = .notStarted then
      some { l with phase := if l.terminated then .returned else .running }
    else none
  | .runTask thread now =>
    if l.phase = .running then
      (l.queues.getNextTaskToRun thread l.queueId now).map fun r => { l with queues := r.2 }
    else none
  | .runReturns => if l.phase = .running then some { l with phase := .stopped } else none
  | .setTerminated now =>
    if l.phase = .stopped then some { l with terminated := true, phase := .flushing now } else none
  | .flushTask thread =>
    match l.phase with
    | .flushing now =>
      (l.queues.getNextTaskToRun thread l.queueId now).map fun r =>
        { l with queues := r.2, phase := if r.1 = none then .disposing else .flushing now }
    | _ => none
  | .disposeTasks =>
    if l.phase = .disposing then
      (l.queues.disposeTasks l.queueId).map fun queues =>
        { l with queues := queues, phase := .returned }
    else none
  | .elsewhere c =>
    if Ordinary c ∧ l.queueId ∉ queueIds c then
      (l.queues.next c).map fun queues => { l with queues := queues }
    else none

def pending (l : MessageLoopImpl C) : List (DelayedTask C) := l.queues.pendingTasks l.queueId

def NothingAccrued (l : MessageLoopImpl C) : Prop := l.phase = .returned → l.pending = []

/-- Nothing is registered once `DoRun` has returned, and `DoRun` finds nothing registered when it
returns at once. -/
def InTime (l : MessageLoopImpl C) : ShutdownEvent C → Prop
  | .registerTask _ => l.phase ≠ .returned
  | .testTerminated => l.terminated = true → l.pending = []
  | _ => True

structure Inv (l : MessageLoopImpl C) : Prop where
  forest : ∃ F, Represents l.queues F
  taskQueueId : ∀ q src, l.queues.source q = some src → src.taskQueueId = q
  alone : l.queues.Alone l.queueId

inductive Step (l m : MessageLoopImpl C) : ShutdownEvent C → Prop where
  | aside (e : ShutdownEvent C) : l.InTime e → m.pending = l.pending →
      (m.phase = .returned ↔ l.phase = .returned) → Step l m e
  | atWork (e : ShutdownEvent C) : l.InTime e → l.phase ≠ .returned →
      (m.phase = .returned → m.pending = []) → Step l m e
  | register (poster : ℕ) : m.phase = l.phase → m.pending ≠ [] → Step l m (.registerTask poster)
  | start : l.phase = .notStarted → m.pending = l.pending →
      (m.phase = .returned ↔ l.terminated = true) → Step l m .testTerminated

variable {l m : MessageLoopImpl C} {e : ShutdownEvent C}

theorem step_of_next (h : l.Inv) (hn : l.next e = some m) : Step l m e := by
  obtain ⟨F, hF⟩ := h.forest
  cases e with
  | postTask task targetTime =>
    simp only [next] at hn
    split_ifs at hn
    · rw [← Option.some.inj hn]
      exact .aside _ trivial rfl Iff.rfl
    · rw [← Option.some.inj hn]
      exact .aside _ trivial rfl Iff.rfl
  | registerTask poster =>
    obtain ⟨post, -, hn⟩ := Option.bind_eq_some_iff.mp hn
    obtain ⟨queues, hq, rfl⟩ := Option.map_eq_some_iff.mp hn
    refine .register poster rfl ?_
    have hperm := (gains_registerTask hq).perm
    intro hnil
    have hnil : queues.pendingTasks l.queueId = [] := hnil
    rw [hnil, List.nil_perm] at hperm
    cases hperm
  | doTerminate =>
    rw [← Option.some.inj hn]
    exact .aside _ trivial rfl Iff.rfl
  | testTerminated =>
    simp only [next] at hn
    split_ifs at hn with hphase hterminated
    · rw [← Option.some.inj hn]
      exact .start hphase rfl (by simp [hterminated])
    · rw [← Option.some.inj hn]
      exact .start hphase rfl (by simp [hterminated])
  | runTask thread now =>
    simp only [next] at hn
    split_ifs at hn with hphase
    obtain ⟨r, -, rfl⟩ := Option.map_eq_some_iff.mp hn
    refine .atWork _ trivial ?_ ?_
    · simp [hphase]
    · simp [hphase]
  | runReturns =>
    simp only [next] at hn
    split_ifs at hn with hphase
    rw [← Option.some.inj hn]
    exact .atWork _ trivial (by simp [hphase]) (by simp)
  | setTerminated now =>
    simp only [next] at hn
    split_ifs at hn with hphase
    rw [← Option.some.inj hn]
    exact .atWork _ trivial (by simp [hphase]) (by simp)
  | flushTask thread =>
    simp only [next] at hn
    split at hn
    · next now hphase =>
      obtain ⟨r, -, rfl⟩ := Option.map_eq_some_iff.mp hn
      refine .atWork _ trivial ?_ ?_
      · simp [hphase]
      · split_ifs <;> simp
    · cases hn
  | disposeTasks =>
    simp only [next] at hn
    split_ifs at hn with hphase
    obtain ⟨queues, hq, rfl⟩ := Option.map_eq_some_iff.mp hn
    refine .atWork _ trivial ?_ ?_
    · simp [hphase]
    · intro _
      exact (drops_disposeTasks hq).gone _ (.inl rfl)
  | elsewhere c =>
    simp only [next] at hn
    split_ifs at hn with hc
    obtain ⟨queues, hq, rfl⟩ := Option.map_eq_some_iff.mp hn
    have hsame := (alone_next hF h.taskQueueId h.alone hc.1 hc.2 hq).2
    exact .aside _ trivial (pendingTasks_congr hsame) Iff.rfl

theorem Inv.own (h : l.Inv) {t : MessageLoopTaskQueues C} {c : QueueCall C}
    (hc : l.queues.Allowed c) (hn : l.queues.next c = some t) (hl : SameLinks l.queues t)
    (hm : m.queues = t) (hid : m.queueId = l.queueId) : m.Inv := by
  obtain ⟨F, hF⟩ := h.forest
  obtain ⟨F', -, hF'⟩ := represents_next hF hc hn
  subst hm
  refine ⟨⟨F', hF'⟩, sourcesNamed_next h.taskQueueId hn, ?_⟩
  rw [hid]
  exact h.alone.sameLinks hl

theorem Inv.quiet (h : l.Inv) (hm : m.queues = l.queues) (hid : m.queueId = l.queueId) : m.Inv := by
  refine ⟨hm ▸ h.forest, hm ▸ h.taskQueueId, ?_⟩
  rw [hm, hid]
  exact h.alone

theorem inv_next (h : l.Inv) (hn : l.next e = some m) : m.Inv := by
  obtain ⟨F, hF⟩ := h.forest
  have getNext : ∀ {thread now r}, l.queues.getNextTaskToRun thread l.queueId now = some r →
      m.queues = r.2 → m.queueId = l.queueId → m.Inv := by
    intro thread now r hr hm hid
    have hcall : l.queues.next (.getNextTaskToRun thread l.queueId now) = some r.2 := by
      simp [MessageLoopTaskQueues.next, hr]
    exact h.own (c := .getNextTaskToRun thread l.queueId now) trivial hcall
      (sameLinks_getNextTaskToRun hr) hm hid
  cases e with
  | postTask task targetTime =>
    simp only [next] at hn
    split_ifs at hn
    · rw [← Option.some.inj hn]
      exact h
    · rw [← Option.some.inj hn]
      exact h.quiet rfl rfl
  | registerTask poster =>
    obtain ⟨post, -, hn⟩ := Option.bind_eq_some_iff.mp hn
    obtain ⟨queues, hq, rfl⟩ := Option.map_eq_some_iff.mp hn
    exact h.own (c := .registerTask l.queueId post.1 post.2 .kUnspecified) trivial hq
      (sameLinks_registerTask hq) rfl rfl
  | doTerminate =>
    rw [← Option.some.inj hn]
    exact h.quiet rfl rfl
  | testTerminated =>
    simp only [next] at hn
    split_ifs at hn
    · rw [← Option.some.inj hn]
      exact h.quiet rfl rfl
    · rw [← Option.some.inj hn]
      exact h.quiet rfl rfl
  | runTask thread now =>
    simp only [next] at hn
    split_ifs at hn
    obtain ⟨r, hr, rfl⟩ := Option.map_eq_some_iff.mp hn
    exact getNext hr rfl rfl
  | runReturns =>
    simp only [next] at hn
    split_ifs at hn
    rw [← Option.some.inj hn]
    exact h.quiet rfl rfl
  | setTerminated now =>
    simp only [next] at hn
    split_ifs at hn
    rw [← Option.some.inj hn]
    exact h.quiet rfl rfl
  | flushTask thread =>
    simp only [next] at hn
    split at hn
    · obtain ⟨r, hr, rfl⟩ := Option.map_eq_some_iff.mp hn
      exact getNext hr rfl rfl
    · cases hn
  | disposeTasks =>
    simp only [next] at hn
    split_ifs at hn
    obtain ⟨queues, hq, rfl⟩ := Option.map_eq_some_iff.mp hn
    exact h.own (c := .disposeTasks l.queueId) h.alone.subsumedBy hq
      (sameLinks_foldlM_shutDownSource (disposeTasks_cases hq).2) rfl rfl
  | elsewhere c =>
    simp only [next] at hn
    split_ifs at hn with hc
    obtain ⟨queues, hq, rfl⟩ := Option.map_eq_some_iff.mp hn
    obtain ⟨F', -, hF'⟩ := represents_next hF (allowed_of_ordinary hc.1) hq
    exact ⟨⟨F', hF'⟩, sourcesNamed_next h.taskQueueId hq,
      (alone_next hF h.taskQueueId h.alone hc.1 hc.2 hq).1⟩

theorem nothingAccrued_step (hs : Step l m e) (hp : l.NothingAccrued) :
    m.NothingAccrued ↔ l.InTime e := by
  cases hs with
  | aside e htime hpending hphase =>
    apply iff_of_true _ htime
    intro hreturned
    rw [hpending]
    exact hp (hphase.mp hreturned)
  | atWork e htime hbefore hafter => exact iff_of_true hafter htime
  | register poster hphase hpending =>
    constructor
    · intro h hreturned
      exact hpending (h (hphase.trans hreturned))
    · intro htime hreturned
      exact absurd (hphase.symm.trans hreturned) htime
  | start hphase hpending hafter =>
    constructor
    · intro h hterminated
      rw [← hpending]
      exact h (hafter.mpr hterminated)
    · intro htime hreturned
      rw [hpending]
      exact htime (hafter.mp hreturned)

theorem nothingAccrued_back (hs : Step l m e) (hp : m.NothingAccrued) : l.NothingAccrued := by
  intro hreturned
  cases hs with
  | aside e htime hpending hphase =>
    rw [← hpending]
    exact hp (hphase.mpr hreturned)
  | atWork e htime hbefore hafter => exact absurd hreturned hbefore
  | register poster hphase hpending => exact absurd (hp (hphase.trans hreturned)) hpending
  | start hphase hpending hafter =>
    rw [hphase] at hreturned
    cases hreturned

theorem inv_create {s : MessageLoopTaskQueues C} {thread : ThreadId}
    (hr : Reachable MessageLoopTaskQueues.next Allowed (.create thread) s)
    (hc : create s = some l) : l.Inv ∧ l.NothingAccrued := by
  obtain ⟨created, hcreated, rfl⟩ := Option.map_eq_some_iff.mp hc
  obtain ⟨F, hF⟩ := represents_reachable (fun _ _ hc => hc) hr
  have hid : s.SourcesNamed := sourcesNamed_reachable hr
  have hentry := createLoop_queueEntries hcreated (x := s.taskQueueIdCounter)
  rw [if_pos rfl] at hentry
  have halone : created.Alone s.taskQueueIdCounter := by
    refine ⟨registered_iff.mpr ⟨_, hentry⟩, ?_, ?_⟩
    · rw [subsumedBy_eq hentry]
      rfl
    · rw [ownerOf_eq hentry]
      rfl
  refine ⟨⟨represents_createLoop hF hcreated, sourcesNamed_createLoop hid hcreated, halone⟩, ?_⟩
  intro hreturned
  cases hreturned

theorem pending_eq_nil_iff_inTime {s : MessageLoopTaskQueues C} {thread : ThreadId}
    {l₀ : MessageLoopImpl C} (hs : Reachable MessageLoopTaskQueues.next Allowed (.create thread) s)
    (hc : create s = some l₀) (es : List (ShutdownEvent C)) (hr : run next l₀ es = some l)
    (hreturned : l.phase = .returned) :
    l.pending = [] ↔ Meets next InTime l₀ es := by
  obtain ⟨hinv, haccrued⟩ := inv_create hs hc
  rw [← last_iff_meets hinv haccrued (fun l e m hi hn => inv_next hi hn)
    (fun l e m hi hn hp => nothingAccrued_step (step_of_next hi hn) hp)
    (fun l e m hi hn hm => nothingAccrued_back (step_of_next hi hn) hm) hr]
  constructor
  · intro hpending _
    exact hpending
  · intro h
    exact h hreturned

def lateRun : List (ShutdownEvent Unit) :=
  [.postTask (some ()) ⟨5⟩, .testTerminated, .doTerminate, .runReturns, .setTerminated ⟨9⟩,
    .flushTask 1, .disposeTasks, .registerTask 0]

theorem pending_eq_nil_iff_inTime_lateRun :
    ∃ l₀ l, create (.create 0) = some l₀ ∧ run next l₀ lateRun = some l ∧
      (l.pending = [] ↔ Meets next InTime l₀ lateRun) :=
  by
  have hs : Reachable MessageLoopTaskQueues.next Allowed
      (MessageLoopTaskQueues.create (C := Unit) 0) (.create 0) := .refl
  exact ⟨_, _, rfl, rfl, pending_eq_nil_iff_inTime hs rfl lateRun rfl rfl⟩

theorem lateRun_accrues_task :
    ∃ l₀ l, create (.create 0) = some l₀ ∧ run next l₀ lateRun = some l ∧ l.phase = .returned ∧
      l.posting = [] ∧ l.pending = [⟨0, some (), ⟨5⟩, .kUnspecified⟩] :=
  ⟨_, _, rfl, rfl, rfl, rfl, rfl⟩

end MessageLoopImpl

end EnvironmentCheck
