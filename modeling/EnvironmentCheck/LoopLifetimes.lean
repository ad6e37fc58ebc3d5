import EnvironmentCheck.Dispatch

namespace EnvironmentCheck

open MessageLoopTaskQueues Transition

variable {C : Type}

namespace MessageLoopTaskQueues

variable {s t : MessageLoopTaskQueues C} {F : OwnerForest TaskQueueId} {q o x : TaskQueueId}

theorem registerTask_isSome (hF : Represents s F) (hid : s.SourcesNamed) (hq : s.Registered q)
    (task : Closure C) (time : TimePoint) (grade : TaskSourceGrade) :
    (s.registerTask q task time grade).isSome := by
  obtain ⟨e, he⟩ := registered_iff.mp hq
  have hlinks : SameLinks s (s.addTask q ⟨orderStamp s.order, task, time, grade⟩) :=
    sameLinks_addTask
  have hlive : s.Registered (e.subsumedBy.getD q) := by
    rw [← subsumedBy_eq he, hF.owner]
    exact (hF.live _).mp (F.root_live ((hF.live q).mpr hq))
  simp only [registerTask, he, Option.bind_eq_bind, Option.bind_some]
  apply wakeUpIfPending_isSome (hF.sameLinks hlinks).linked
  · exact hid.mapped (fun _ => TaskSource.registerTask_taskQueueId) fun y => source_addTask
  · exact (hlinks.registered _).mpr hlive

theorem merge_isSome (hF : Represents s F) (hid : s.SourcesNamed) (ho : s.Registered o)
    (hx : s.Registered x) : (s.merge o x).isSome := by
  obtain ⟨eo, heo⟩ := registered_iff.mp ho
  obtain ⟨ex, hex⟩ := registered_iff.mp hx
  unfold merge
  split_ifs with hne
  · rfl
  simp only [heo, hex, Option.bind_eq_bind, Option.bind_some]
  split_ifs with hmem hroot hleaf hfree
  · rfl
  · rfl
  · rfl
  · rfl
  · have hnone : ∀ {y e}, s.queueEntries y = some e → ¬ e.subsumedBy ≠ none →
        F.owner y = none := by
      intro y e he hn
      rw [← hF.owner, subsumedBy_eq he]
      exact not_not.mp hn
    have hnil : s.ownerOf x = [] := by
      rw [ownerOf_eq hex]
      simpa [Ordered.isEmpty] using hleaf
    have hF' := hF.setMerged ((hF.live o).mpr ho) ((hF.live x).mpr hx) hne (hnone heo hroot)
      (hF.not_isOwner hnil) (hnone hex hfree)
    have hid' : (s.setMerged o x).SourcesNamed := hid.congr fun _ => source_setMerged
    have hwake := wakeUpIfPending_isSome hF'.linked hid' (registered_setMerged.mpr ho)
    obtain ⟨u, hu⟩ := Option.isSome_iff_exists.mp hwake
    simp [hu]

theorem unmerge_isSome (hF : Represents s F) (hid : s.SourcesNamed) (ho : s.Registered o)
    (hx : s.Registered x) : (s.unmerge o x).isSome := by
  obtain ⟨eo, heo⟩ := registered_iff.mp ho
  obtain ⟨ex, hex⟩ := registered_iff.mp hx
  simp only [unmerge, heo, hex, Option.bind_eq_bind, Option.bind_some]
  split_ifs with hempty hroot hfree hmem
  · rfl
  · rfl
  · rfl
  · have hown : F.Owns o x := by
      rw [← hF.ownerOf, mem_ownerOf heo]
      exact hmem
    have hF' := hF.setUnmerged hown
    have hid' : (s.setUnmerged o x).SourcesNamed := hid.congr fun _ => source_setUnmerged
    obtain ⟨u, hu⟩ := Option.isSome_iff_exists.mp
      (wakeUpIfPending_isSome hF'.linked hid' (registered_setUnmerged.mpr ho))
    have hlinks := sameLinks_wakeUpIfPending hu
    have hwake : (u.wakeUpIfPending x).isSome := by
      apply wakeUpIfPending_isSome (hF'.sameLinks hlinks).linked
      · exact hid'.congr (source_wakeUpIfPending hu)
      · exact (hlinks.registered x).mpr (registered_setUnmerged.mpr hx)
    obtain ⟨v, hv⟩ := Option.isSome_iff_exists.mp hwake
    simp [hu, hv]
  · rfl

theorem resumeSecondarySource_isSome (hF : Represents s F) (hid : s.SourcesNamed) (hq : s.Registered q) :
    (s.resumeSecondarySource q).isSome := by
  obtain ⟨e, he⟩ := registered_iff.mp hq
  have hlinks : SameLinks s (s.resume q) := sameLinks_resume
  simp only [resumeSecondarySource, he, Option.bind_eq_bind, Option.bind_some]
  apply wakeUpIfPending_isSome (hF.sameLinks hlinks).linked
  · exact hid.mapped (f := (·.resumeSecondary)) (fun _ => rfl) fun y => source_resume
  · exact (hlinks.registered q).mpr hq

theorem registered_next {c : QueueCall C} (hc : Ordinary c)
    (hn : s.next c = some t) (q : TaskQueueId) : t.Registered q ↔ s.Registered q := by
  cases c with
  | createTaskQueue => exact hc.elim
  | dispose q => exact hc.elim
  | disposeTasks q => exact hc.elim
  | setWakeable q wakeable => exact hc.elim
  | registerTask q' task time grade => exact (sameLinks_registerTask hn).registered q
  | getNextTaskToRun thread q' time =>
    obtain ⟨⟨b, u⟩, hg, rfl⟩ := Option.map_eq_some_iff.mp hn
    exact (sameLinks_getNextTaskToRun hg).registered q
  | addTaskObserver q' key callback =>
    rw [addTaskObserver_cases hn]
    exact registered_modifyEntry
  | removeTaskObserver q' key =>
    rw [removeTaskObserver_cases hn]
    exact registered_modifyEntry
  | merge o x =>
    obtain ⟨⟨b, u⟩, hm, rfl⟩ := Option.map_eq_some_iff.mp hn
    rcases merge_cases hm with ⟨rfl, -⟩ | ⟨-, -, -, -, -, -, -, hw⟩
    · exact Iff.rfl
    · exact ((sameLinks_wakeUpIfPending hw).registered q).trans registered_setMerged
  | unmerge o x =>
    obtain ⟨⟨b, u⟩, hm, rfl⟩ := Option.map_eq_some_iff.mp hn
    rcases unmerge_cases hm with ⟨-, rfl⟩ | ⟨-, -, -, v, hv, hw⟩
    · exact Iff.rfl
    · have hlinks := (sameLinks_wakeUpIfPending hv).trans (sameLinks_wakeUpIfPending hw)
      exact (hlinks.registered q).trans registered_setUnmerged
  | pauseSecondarySource q' =>
    rw [(pauseSecondarySource_cases hn).2]
    exact registered_modifyEntry
  | resumeSecondarySource q' =>
    exact (sameLinks_resumeSecondarySource hn).registered q

theorem foldlM_shutDownSource_isSome {xs : List TaskQueueId} (h : ∀ x ∈ xs, s.Registered x) :
    (xs.foldlM shutDownSource s).isSome := by
  induction xs generalizing s with
  | nil => rfl
  | cons x xs ih =>
    obtain ⟨e, he⟩ := registered_iff.mp (h x List.mem_cons_self)
    have hstep : s.shutDownSource x = some (s.modifyEntry x fun e =>
        { e with taskSource := e.taskSource.shutDown }) := by
      simp [shutDownSource, he]
    rw [List.foldlM_cons, hstep]
    apply ih
    intro y hy
    exact registered_modifyEntry.mpr (h y (List.mem_cons_of_mem _ hy))

theorem next_isSome (hF : Represents s F) (hid : s.SourcesNamed) {c : QueueCall C}
    (hc : ∀ q wakeable, c ≠ .setWakeable q wakeable) (hq : ∀ q ∈ queueIds c, s.Registered q) :
    (s.next c).isSome := by
  have found : ∀ {q}, s.Registered q → ∃ e, s.queueEntries q = some e := registered_iff.mp
  cases c with
  | createTaskQueue => rfl
  | setWakeable q wakeable => exact absurd rfl (hc q wakeable)
  | dispose q =>
    obtain ⟨e, he⟩ := found (hq q (by simp [queueIds]))
    simp [next, dispose, he]
  | disposeTasks q =>
    have hreg := hq q (by simp [queueIds])
    obtain ⟨e, he⟩ := found hreg
    simp only [next, disposeTasks, he, Option.bind_eq_bind, Option.bind_some]
    apply foldlM_shutDownSource_isSome
    intro x hx
    rw [← ownerOf_eq he] at hx
    rcases List.mem_cons.mp hx with rfl | hx
    · exact hreg
    · exact hF.linked q x hx
  | registerTask q task time grade =>
    exact registerTask_isSome hF hid (hq q (by simp [queueIds])) task time grade
  | getNextTaskToRun thread q time =>
    rw [next, Option.isSome_map]
    exact getNextTaskToRun_isSome hF.linked hid (hq q (by simp [queueIds])) thread time
  | addTaskObserver q key callback =>
    obtain ⟨e, he⟩ := found (hq q (by simp [queueIds]))
    simp [next, addTaskObserver, he]
  | removeTaskObserver q key =>
    obtain ⟨e, he⟩ := found (hq q (by simp [queueIds]))
    simp [next, removeTaskObserver, he]
  | merge o x =>
    rw [next, Option.isSome_map]
    exact merge_isSome hF hid (hq o (by simp [queueIds])) (hq x (by simp [queueIds]))
  | unmerge o x =>
    rw [next, Option.isSome_map]
    exact unmerge_isSome hF hid (hq o (by simp [queueIds])) (hq x (by simp [queueIds]))
  | pauseSecondarySource q =>
    obtain ⟨e, he⟩ := found (hq q (by simp [queueIds]))
    simp [next, pauseSecondarySource, he]
  | resumeSecondarySource q =>
    exact resumeSecondarySource_isSome hF hid (hq q (by simp [queueIds]))

end MessageLoopTaskQueues

structure LiveLoops (C : Type) where
  queues : MessageLoopTaskQueues C
  live : List TaskQueueId

inductive LifetimeEvent (C : Type) where
  | createLoop
  | call (c : QueueCall C)
  | destroyLoop (queueId : TaskQueueId)

namespace LiveLoops

def create (thread : ThreadId) : LiveLoops C := ⟨.create thread, []⟩

def next (l : LiveLoops C) : LifetimeEvent C → Option (LiveLoops C)
  | .createLoop =>
    l.queues.createLoop.map fun queues => ⟨queues, l.queues.taskQueueIdCounter :: l.live⟩
  | .call c =>
    if Ordinary c ∧ ∀ q ∈ queueIds c, q ∈ l.live then
      (l.queues.next c).map fun queues => { l with queues := queues }
    else none
  | .destroyLoop q =>
    if q ∈ l.live then
      (l.queues.dispose q).map fun queues => ⟨queues, l.live.filter (· ≠ q)⟩
    else none

/-- Every loop finds its entry, no entry names one that was erased, and no call on the queue of a
live loop misses an entry. -/
structure Consistent (l : LiveLoops C) : Prop where
  entries : ∀ q ∈ l.live, l.queues.Registered q
  owned : ∀ o x, x ∈ l.queues.ownerOf o → l.queues.Registered x
  owner : ∀ o x, l.queues.subsumedBy x = some o → l.queues.Registered o
  finds : ∀ c, (∀ q wakeable, c ≠ .setWakeable q wakeable) → (∀ q ∈ queueIds c, q ∈ l.live) →
    (l.queues.next c).isSome
  counts : ∀ q ∈ l.live, (l.queues.getNumPendingTasks q).isSome

def DestroyedAlone (l : LiveLoops C) : LifetimeEvent C → Prop
  | .destroyLoop q => l.queues.ownerOf q = [] ∧ l.queues.subsumedBy q = none
  | _ => True

structure Inv (l : LiveLoops C) : Prop where
  forest : ∃ F, Represents l.queues F
  taskQueueId : ∀ q src, l.queues.source q = some src → src.taskQueueId = q
  live : ∀ q, q ∈ l.live ↔ l.queues.Registered q

variable {l m : LiveLoops C} {e : LifetimeEvent C} {q : TaskQueueId}

theorem Inv.consistent (h : l.Inv) : l.Consistent := by
  obtain ⟨F, hF⟩ := h.forest
  constructor
  · intro q hq
    exact (h.live q).mp hq
  · intro o x hx
    exact hF.linked o x hx
  · intro o x hx
    rw [hF.owner] at hx
    exact (hF.live o).mp (F.owner_live hx)
  · intro c hc hq
    exact next_isSome hF h.taskQueueId hc fun q hmem => (h.live q).mp (hq q hmem)
  · intro q hq
    obtain ⟨e, he⟩ := registered_iff.mp ((h.live q).mp hq)
    simp only [getNumPendingTasks, he, Option.bind_eq_bind, Option.bind_some]
    split_ifs
    · rfl
    · rw [← ownerOf_eq he, sources_eq (hF.linked q)]
      rfl

theorem inv_create (thread : ThreadId) : (create (C := C) thread).Inv := by
  refine ⟨⟨.empty, represents_create thread⟩, ?_, ?_⟩
  · exact sourcesNamed_create thread
  · intro q
    simp [create, Registered, MessageLoopTaskQueues.create]

theorem inv_createLoop {t : MessageLoopTaskQueues C} (h : l.Inv)
    (hn : l.queues.createLoop = some t) : Inv ⟨t, l.queues.taskQueueIdCounter :: l.live⟩ := by
  obtain ⟨F, hF⟩ := h.forest
  refine ⟨represents_createLoop hF hn, sourcesNamed_createLoop h.taskQueueId hn, ?_⟩
  intro q
  have hentry := createLoop_queueEntries hn (x := q)
  unfold Registered
  rw [List.mem_cons, h.live, hentry]
  by_cases hq : q = l.queues.taskQueueIdCounter
  · simp [hq]
  · simp [hq, Registered]

theorem inv_call {t : MessageLoopTaskQueues C} (h : l.Inv) {c : QueueCall C} (hc : Ordinary c)
    (hn : l.queues.next c = some t) : Inv { l with queues := t } := by
  obtain ⟨F, hF⟩ := h.forest
  obtain ⟨F', -, hF'⟩ := represents_next hF (allowed_of_ordinary hc) hn
  refine ⟨⟨F', hF'⟩, sourcesNamed_next h.taskQueueId hn, fun q => ?_⟩
  rw [registered_next hc hn]
  exact h.live q

theorem inv_destroyLoop {t : MessageLoopTaskQueues C} (h : l.Inv)
    (halone : l.DestroyedAlone (.destroyLoop q)) (hn : l.queues.dispose q = some t) :
    Inv ⟨t, l.live.filter (· ≠ q)⟩ := by
  obtain ⟨F, hF⟩ := h.forest
  have hnext : l.queues.next (.dispose q) = some t := hn
  refine ⟨⟨_, hF.dispose ((hF.owner q).symm.trans halone.2) hn⟩,
    sourcesNamed_next h.taskQueueId hnext, fun x => ?_⟩
  rw [registered_dispose hn, halone.1, List.mem_filter, h.live]
  simp

theorem not_consistent_destroyLoop {t : MessageLoopTaskQueues C} (h : l.Inv)
    (hmerged : ¬ l.DestroyedAlone (.destroyLoop q)) (hn : l.queues.dispose q = some t) :
    ¬ Consistent ⟨t, l.live.filter (· ≠ q)⟩ := by
  obtain ⟨F, hF⟩ := h.forest
  intro hcons
  have hgone : ∀ x, x = q ∨ x ∈ l.queues.ownerOf q → ¬ t.Registered x := by
    intro x hx hreg
    exact ((registered_dispose hn).mp hreg).2 hx
  by_cases hown : l.queues.ownerOf q = []
  · have hsub : l.queues.subsumedBy q ≠ none := fun hnone => hmerged ⟨hown, hnone⟩
    obtain ⟨o, ho⟩ := Option.ne_none_iff_exists'.mp hsub
    have howns : F.Owns o q := (hF.owner q).symm.trans ho
    have hoq : o ≠ q := fun he => F.not_owns_self q (he ▸ howns)
    have hmem : q ∈ t.ownerOf o := by
      rw [ownerOf_dispose hn, hown, if_neg (by simpa using hoq)]
      exact (hF.ownerOf o q).mpr howns
    exact hgone q (.inl rfl) (hcons.owned o q hmem)
  · obtain ⟨x, hx⟩ := List.exists_mem_of_ne_nil _ hown
    have howns : F.Owns q x := (hF.ownerOf q x).mp hx
    have hxq : x ≠ q := fun he => F.not_owns_self x (he ▸ howns)
    have hlive : x ∈ l.live := (h.live x).mpr (hF.linked q x hx)
    apply hgone x (.inr hx)
    apply hcons.entries
    simpa using ⟨hlive, hxq⟩

theorem inv_next (h : l.Inv) (hc : l.DestroyedAlone e) (hn : l.next e = some m) : m.Inv := by
  cases e with
  | createLoop =>
    obtain ⟨t, ht, rfl⟩ := Option.map_eq_some_iff.mp hn
    exact inv_createLoop h ht
  | call c =>
    simp only [next] at hn
    split_ifs at hn with hcall
    obtain ⟨t, ht, rfl⟩ := Option.map_eq_some_iff.mp hn
    exact inv_call h hcall.1 ht
  | destroyLoop q =>
    simp only [next] at hn
    split_ifs at hn
    obtain ⟨t, ht, rfl⟩ := Option.map_eq_some_iff.mp hn
    exact inv_destroyLoop h hc ht

theorem destroyedAlone_of_consistent (h : l.Inv) (hn : l.next e = some m) (hm : m.Consistent) :
    l.DestroyedAlone e := by
  cases e with
  | createLoop => trivial
  | call c => trivial
  | destroyLoop q =>
    by_contra hmerged
    simp only [next] at hn
    split_ifs at hn
    obtain ⟨t, ht, rfl⟩ := Option.map_eq_some_iff.mp hn
    exact not_consistent_destroyLoop h hmerged ht hm

theorem consistent_iff (thread : ThreadId) (es : List (LifetimeEvent C))
    (hr : (run next (create thread) es).isSome) :
    Always next Consistent (create thread) es ↔ Meets next DestroyedAlone (create thread) es := by
  have hi : (create (C := C) thread).Inv := inv_create thread
  apply always_iff_meets hi hi.consistent _ _ hr
  · intro l e m hi hn _ hc
    exact inv_next hi hc hn
  · intro l e m hi hn _
    constructor
    · intro hm
      exact destroyedAlone_of_consistent hi hn hm
    · intro hc
      exact (inv_next hi hc hn).consistent

def ownerFirst : List (LifetimeEvent Unit) :=
  [.createLoop, .createLoop, .call (.merge 0 1), .destroyLoop 0]

theorem consistent_iff_ownerFirst :
    Always next Consistent (create 0) ownerFirst ↔ Meets next DestroyedAlone (create 0) ownerFirst :=
  consistent_iff 0 ownerFirst (by decide)

theorem ownerFirst_erases_live_entry :
    ∃ l, run next (create 0) ownerFirst = some l ∧ 1 ∈ l.live ∧ ¬ l.queues.Registered 1 ∧
      l.next (.destroyLoop 1) = none := by
  refine ⟨_, rfl, by decide, ?_, rfl⟩
  intro h
  cases h

end LiveLoops

end EnvironmentCheck
