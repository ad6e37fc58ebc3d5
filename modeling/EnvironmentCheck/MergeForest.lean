import EnvironmentCheck.Library.OwnerForest
import EnvironmentCheck.QueueSteps

namespace EnvironmentCheck.MessageLoopTaskQueues

open Transition

variable {C : Type} {s t : MessageLoopTaskQueues C} {F : OwnerForest TaskQueueId}
  {q o x y : TaskQueueId}

structure Represents (s : MessageLoopTaskQueues C) (F : OwnerForest TaskQueueId) : Prop where
  live : ∀ q, q ∈ F.live ↔ s.Registered q
  owner : ∀ q, s.subsumedBy q = F.owner q
  ownerOf : ∀ o x, x ∈ s.ownerOf o ↔ F.Owns o x
  fresh : ∀ q, s.Registered q → q < s.taskQueueIdCounter

theorem Represents.sameLinks (h : Represents s F) (hst : SameLinks s t) : Represents t F where
  live q := (h.live q).trans (hst.registered q).symm
  owner q := (hst.subsumedBy q).trans (h.owner q)
  ownerOf o x := by rw [hst.ownerOf o, h.ownerOf]
  fresh q hq := by
    rw [hst.counter]
    exact h.fresh q ((hst.registered q).mp hq)

theorem setMerged_queueEntries (hne : o ≠ x) :
    (s.setMerged o x).queueEntries q =
      if q = x then (s.queueEntries x).map fun e => { e with subsumedBy := some o }
      else if q = o then (s.queueEntries o).map fun e => { e with ownerOf := e.ownerOf.insert x }
      else s.queueEntries q := by
  simp [setMerged, modifyEntry_queueEntries, hne.symm]

theorem setUnmerged_queueEntries (hne : o ≠ x) :
    (s.setUnmerged o x).queueEntries q =
      if q = o then (s.queueEntries o).map fun e => { e with ownerOf := e.ownerOf.erase x }
      else if q = x then (s.queueEntries x).map fun e => { e with subsumedBy := none }
      else s.queueEntries q := by
  simp [setUnmerged, modifyEntry_queueEntries, hne]

theorem registered_setMerged : (s.setMerged o x).Registered q ↔ s.Registered q :=
  registered_modifyEntry.trans registered_modifyEntry

theorem registered_setUnmerged : (s.setUnmerged o x).Registered q ↔ s.Registered q :=
  registered_modifyEntry.trans registered_modifyEntry

theorem subsumedBy_setMerged (hne : o ≠ x) (hx : s.Registered x) :
    (s.setMerged o x).subsumedBy q = if q = x then some o else s.subsumedBy q := by
  obtain ⟨e, he⟩ := registered_iff.mp hx
  unfold subsumedBy
  rw [setMerged_queueEntries hne]
  split_ifs with hq ho
  · simp [he]
  · subst ho
    cases s.queueEntries q <;> rfl
  · rfl

theorem mem_ownerOf_setMerged (hne : o ≠ x) (ho : s.Registered o) :
    y ∈ (s.setMerged o x).ownerOf q ↔ y ∈ s.ownerOf q ∨ (q = o ∧ y = x) := by
  obtain ⟨e, he⟩ := registered_iff.mp ho
  by_cases hqo : q = o
  · subst hqo
    have hm : (s.setMerged q x).queueEntries q =
        some { e with ownerOf := e.ownerOf.insert x } := by
      simp [setMerged_queueEntries hne, hne, he]
    rw [mem_ownerOf hm, mem_ownerOf he, Ordered.mem_insert]
    simp only [id_eq, true_and, ne_eq]
    tauto
  · have hsame : (s.setMerged o x).ownerOf q = s.ownerOf q := by
      unfold MessageLoopTaskQueues.ownerOf
      rw [setMerged_queueEntries hne, if_neg hqo]
      split_ifs with hqx
      · subst hqx
        cases s.queueEntries q <;> rfl
      · rfl
    rw [hsame]
    simp [hqo]

theorem subsumedBy_setUnmerged (hne : o ≠ x) :
    (s.setUnmerged o x).subsumedBy q = if q = x then none else s.subsumedBy q := by
  unfold subsumedBy
  rw [setUnmerged_queueEntries hne]
  by_cases ho : q = o
  · subst ho
    rw [if_pos rfl, if_neg hne]
    cases s.queueEntries q <;> rfl
  · rw [if_neg ho]
    split_ifs with hq
    · cases s.queueEntries x <;> rfl
    · rfl

theorem mem_ownerOf_setUnmerged (hne : o ≠ x) :
    y ∈ (s.setUnmerged o x).ownerOf q ↔ y ∈ s.ownerOf q ∧ ¬ (q = o ∧ y = x) := by
  unfold MessageLoopTaskQueues.ownerOf
  rw [setUnmerged_queueEntries hne]
  by_cases ho : q = o
  · subst ho
    rw [if_pos rfl]
    cases s.queueEntries q with
    | none => simp
    | some e => simp [Ordered.erase]
  · rw [if_neg ho]
    split_ifs with hqx
    · subst hqx
      cases s.queueEntries q <;> simp [ho]
    · simp [ho]

theorem Represents.setMerged (h : Represents s F) (ho : o ∈ F.live) (hx : x ∈ F.live) (hne : o ≠ x)
    (hroot : F.owner o = none) (hleaf : ¬ F.IsOwner x) (hfree : F.owner x = none) :
    Represents (s.setMerged o x) (F.link ho hx hne hroot hleaf) where
  live q := (h.live q).trans registered_setMerged.symm
  owner q := by
    rw [subsumedBy_setMerged hne ((h.live x).mp hx), h.owner]
    simp [OwnerForest.link, Function.update_apply]
  ownerOf p y := by
    rw [mem_ownerOf_setMerged hne ((h.live o).mp ho), h.ownerOf]
    simp only [OwnerForest.Owns, OwnerForest.link, Function.update_apply]
    by_cases hy : y = x
    · subst hy
      simp [hfree, eq_comm]
    · simp [hy]
  fresh q hq := h.fresh q (registered_setMerged.mp hq)

theorem Represents.setUnmerged (h : Represents s F) (hx : F.Owns o x) :
    Represents (s.setUnmerged o x) (F.unlink x) where
  live q := (h.live q).trans registered_setUnmerged.symm
  owner q := by
    have hne : o ≠ x := fun he => F.not_owns_self x (he ▸ hx)
    rw [subsumedBy_setUnmerged hne, h.owner]
    simp [OwnerForest.unlink, Function.update_apply]
  ownerOf p y := by
    have hne : o ≠ x := fun he => F.not_owns_self x (he ▸ hx)
    rw [mem_ownerOf_setUnmerged hne, h.ownerOf]
    simp only [OwnerForest.Owns, OwnerForest.unlink, Function.update_apply]
    by_cases hy : y = x
    · subst hy
      have ho : F.owner y = some o := hx
      simp [ho, eq_comm]
    · simp [hy]
  fresh q hq := h.fresh q (registered_setUnmerged.mp hq)

theorem Represents.createTaskQueue (h : Represents s F) :
    Represents s.createTaskQueue.2 (F.add s.taskQueueIdCounter) := by
  have hnew : ¬ s.Registered s.taskQueueIdCounter := fun hr => lt_irrefl _ (h.fresh _ hr)
  have hentry : ∀ q, s.createTaskQueue.2.queueEntries q =
      if q = s.taskQueueIdCounter then some (.create q) else s.queueEntries q := by
    intro q
    simp only [MessageLoopTaskQueues.createTaskQueue, Function.update_apply]
    split_ifs with hq
    · rw [hq]
    · rfl
  have hfree : F.owner s.taskQueueIdCounter = none := by
    cases ho : F.owner s.taskQueueIdCounter with
    | none => rfl
    | some o => exact absurd ((h.live _).mp (F.owned_live ho)) hnew
  have hleaf : ∀ x, ¬ F.Owns s.taskQueueIdCounter x :=
    fun x hx => hnew ((h.live _).mp (F.owner_live hx))
  constructor
  · intro q
    unfold Registered
    rw [hentry]
    split_ifs with hq
    · simp [hq, OwnerForest.add]
    · simp [hq, OwnerForest.add, h.live, Registered]
  · intro q
    unfold MessageLoopTaskQueues.subsumedBy
    rw [hentry]
    split_ifs with hq
    · simp [hq, OwnerForest.add, hfree, TaskQueueEntry.create]
    · exact h.owner q
  · intro o x
    unfold MessageLoopTaskQueues.ownerOf
    rw [hentry]
    split_ifs with ho
    · subst ho
      simp only [TaskQueueEntry.create, Ordered.empty, Option.map_some, Option.getD_some,
        List.not_mem_nil, false_iff]
      exact hleaf x
    · exact h.ownerOf o x
  · intro q hq
    unfold Registered at hq
    rw [hentry] at hq
    split_ifs at hq with hc
    · exact hc ▸ Nat.lt_succ_self _
    · exact Nat.lt_succ_of_lt (h.fresh q hq)

theorem foldl_eraseEntry_queueEntries (xs : List TaskQueueId) (s : MessageLoopTaskQueues C) :
    (xs.foldl eraseEntry s).queueEntries q = if q ∈ xs then none else s.queueEntries q := by
  induction xs generalizing s with
  | nil => simp
  | cons x xs ih =>
    rw [List.foldl_cons, ih]
    by_cases hq : q = x <;> simp [eraseEntry, hq]

theorem foldl_eraseEntry_counter (xs : List TaskQueueId) (s : MessageLoopTaskQueues C) :
    (xs.foldl eraseEntry s).taskQueueIdCounter = s.taskQueueIdCounter := by
  induction xs generalizing s with
  | nil => rfl
  | cons x xs ih => exact ih (s.eraseEntry x)

theorem dispose_queueEntries (h : s.dispose q = some t) :
    t.queueEntries x = if x = q ∨ x ∈ s.ownerOf q then none else s.queueEntries x := by
  obtain ⟨-, rfl⟩ := dispose_cases h
  simp only [eraseEntry, Function.update_apply, foldl_eraseEntry_queueEntries]
  by_cases hx : x = q <;> simp [hx]

theorem registered_dispose (h : s.dispose q = some t) :
    t.Registered x ↔ s.Registered x ∧ ¬ (x = q ∨ x ∈ s.ownerOf q) := by
  unfold Registered
  rw [dispose_queueEntries h]
  split_ifs with hx
  · simp [hx]
  · simp [hx]

theorem subsumedBy_dispose (h : s.dispose q = some t) :
    t.subsumedBy x = if x = q ∨ x ∈ s.ownerOf q then none else s.subsumedBy x := by
  unfold subsumedBy
  rw [dispose_queueEntries h]
  split_ifs <;> rfl

theorem ownerOf_dispose (h : s.dispose q = some t) :
    t.ownerOf x = if x = q ∨ x ∈ s.ownerOf q then [] else s.ownerOf x := by
  rw [MessageLoopTaskQueues.ownerOf, dispose_queueEntries h]
  split_ifs <;> rfl

theorem counter_dispose (h : s.dispose q = some t) :
    t.taskQueueIdCounter = s.taskQueueIdCounter := by
  obtain ⟨-, rfl⟩ := dispose_cases h
  exact foldl_eraseEntry_counter _ _

theorem Represents.dispose (h : Represents s F) (hroot : F.owner q = none)
    (hd : s.dispose q = some t) : Represents t (F.remove q) := by
  have hgone : ∀ x, x = q ∨ x ∈ s.ownerOf q ↔ x = q ∨ F.owner x = some q := by
    intro x
    rw [h.ownerOf]
    exact Iff.rfl
  constructor
  · intro x
    rw [registered_dispose hd, hgone, ← h.live, not_or]
    exact Iff.rfl
  · intro x
    rw [subsumedBy_dispose hd, h.owner]
    simp only [hgone, OwnerForest.remove]
  · intro o x
    rw [ownerOf_dispose hd]
    simp only [hgone, OwnerForest.Owns, OwnerForest.remove]
    split_ifs with ho hx hx
    · simp
    · simp only [List.not_mem_nil, false_iff]
      intro hox
      rcases ho with rfl | ho
      · exact hx (.inr hox)
      · rw [F.owner_root hox] at ho
        cases ho
    · rw [h.ownerOf]
      apply iff_of_false _ (by simp)
      intro hox
      have howner : F.owner x = some o := hox
      rcases hx with rfl | hx
      · rw [hroot] at howner
        cases howner
      · exact ho (.inl (Option.some.inj (howner.symm.trans hx)))
    · exact h.ownerOf o x
  · intro x hx
    rw [counter_dispose hd]
    exact h.fresh x ((registered_dispose hd).mp hx).1

theorem sameLinks_shutDownSource (h : s.shutDownSource q = some t) : SameLinks s t := by
  simp only [shutDownSource, Option.bind_eq_bind, Option.bind_eq_some_iff] at h
  obtain ⟨e, -, h⟩ := h
  rw [← Option.some.inj h]
  exact sameLinks_modifyEntry (fun _ => rfl) fun _ => rfl

theorem sameLinks_foldlM_shutDownSource {xs : List TaskQueueId}
    (h : xs.foldlM shutDownSource s = some t) : SameLinks s t := by
  induction xs generalizing s with
  | nil =>
    cases h
    exact .refl _
  | cons x xs ih =>
    rw [List.foldlM_cons] at h
    obtain ⟨u, hu, h⟩ := Option.bind_eq_some_iff.mp h
    exact (sameLinks_shutDownSource hu).trans (ih h)

theorem sameLinks_getNextTaskToRun {thread : ThreadId} {fromTime : TimePoint} {c : Closure C}
    (h : s.getNextTaskToRun thread q fromTime = some (c, t)) : SameLinks s t := by
  rcases getNextTaskToRun_cases h with ⟨-, -, rfl⟩ | ⟨top, -, -, ⟨-, -, rfl⟩ | ⟨-, -, src, -, rfl⟩⟩
  · exact .refl _
  · exact sameLinks_rearm _
  · exact (sameLinks_rearm _).trans sameLinks_popTask

theorem sameLinks_registerTask {task : Closure C} {time : TimePoint} {grade : TaskSourceGrade}
    (h : s.registerTask q task time grade = some t) : SameLinks s t := by
  exact sameLinks_addTask.trans (sameLinks_wakeUpIfPending (registerTask_cases h).2)

theorem sameLinks_resumeSecondarySource (h : s.resumeSecondarySource q = some t) :
    SameLinks s t := by
  exact sameLinks_resume.trans (sameLinks_wakeUpIfPending (resumeSecondarySource_cases h).2)

theorem Represents.not_isOwner (h : Represents s F) (hleaf : s.ownerOf x = []) : ¬ F.IsOwner x := by
  rintro ⟨y, hy⟩
  have hmem := (h.ownerOf x y).mpr hy
  rw [hleaf] at hmem
  cases hmem

theorem represents_merge (h : Represents s F) {b : Bool} (hm : s.merge o x = some (b, t)) :
    ∃ F', F.Step F' ∧ Represents t F' := by
  rcases merge_cases hm with ⟨rfl, -⟩ | ⟨-, hne, ho, hx, hroot, hfree, hleaf, hw⟩
  · exact ⟨F, .stay, h⟩
  have hleaf' : ¬ F.IsOwner x := h.not_isOwner hleaf
  rw [h.owner] at hroot hfree
  refine ⟨_, .link ((h.live o).mpr ho) ((h.live x).mpr hx) hne hroot hleaf' hfree, ?_⟩
  exact (h.setMerged _ _ hne hroot hleaf' hfree).sameLinks (sameLinks_wakeUpIfPending hw)

theorem represents_unmerge (h : Represents s F) {b : Bool} (hm : s.unmerge o x = some (b, t)) :
    ∃ F', F.Step F' ∧ Represents t F' := by
  rcases unmerge_cases hm with ⟨-, rfl⟩ | ⟨-, -, hmem, u, hu, ht⟩
  · exact ⟨F, .stay, h⟩
  have hx : F.Owns o x := (h.ownerOf o x).mp hmem
  refine ⟨_, .unlink o x hx, (h.setUnmerged hx).sameLinks ?_⟩
  exact (sameLinks_wakeUpIfPending hu).trans (sameLinks_wakeUpIfPending ht)

/-- What the `FOREVER_DCHECK`s of `Dispose` and `DisposeTasks` demand. -/
def Allowed (s : MessageLoopTaskQueues C) : QueueCall C → Prop
  | .dispose queueId => s.subsumedBy queueId = none
  | .disposeTasks queueId => s.subsumedBy queueId = none
  | _ => True

instance : DecidablePred s.Allowed
  | .dispose queueId => inferInstanceAs (Decidable (s.subsumedBy queueId = none))
  | .disposeTasks queueId => inferInstanceAs (Decidable (s.subsumedBy queueId = none))
  | .createTaskQueue | .registerTask _ _ _ _ | .getNextTaskToRun _ _ _ | .addTaskObserver _ _ _
  | .removeTaskObserver _ _ | .setWakeable _ _ | .merge _ _ | .unmerge _ _
  | .pauseSecondarySource _ | .resumeSecondarySource _ => .isTrue trivial

theorem allowed_of_ordinary {c : QueueCall C} (hc : Ordinary c) : s.Allowed c := by
  cases c with
  | dispose q => exact hc.elim
  | disposeTasks q => exact hc.elim
  | _ => exact trivial

theorem represents_next (h : Represents s F) {c : QueueCall C} (hc : s.Allowed c)
    (hn : s.next c = some t) : ∃ F', F.Step F' ∧ Represents t F' := by
  have stay : SameLinks s t → ∃ F', F.Step F' ∧ Represents t F' :=
    fun hst => ⟨F, .stay, h.sameLinks hst⟩
  cases c with
  | createTaskQueue =>
    rw [← Option.some.inj hn]
    refine ⟨_, .add _ fun hl => ?_, h.createTaskQueue⟩
    exact lt_irrefl _ (h.fresh _ ((h.live _).mp hl))
  | dispose q =>
    have hroot : F.owner q = none := (h.owner q).symm.trans hc
    exact ⟨_, .remove q hroot, h.dispose hroot hn⟩
  | disposeTasks q => exact stay (sameLinks_foldlM_shutDownSource (disposeTasks_cases hn).2)
  | registerTask q task time grade => exact stay (sameLinks_registerTask hn)
  | getNextTaskToRun thread q time =>
    obtain ⟨⟨c, u⟩, hg, rfl⟩ := Option.map_eq_some_iff.mp hn
    exact stay (sameLinks_getNextTaskToRun hg)
  | addTaskObserver q key callback =>
    rw [addTaskObserver_cases hn]
    exact ⟨F, .stay, h.sameLinks (sameLinks_modifyEntry (fun _ => rfl) fun _ => rfl)⟩
  | removeTaskObserver q key =>
    rw [removeTaskObserver_cases hn]
    exact ⟨F, .stay, h.sameLinks (sameLinks_modifyEntry (fun _ => rfl) fun _ => rfl)⟩
  | setWakeable q wakeable =>
    rw [setWakeable_cases hn]
    exact ⟨F, .stay, h.sameLinks (sameLinks_modifyEntry (fun _ => rfl) fun _ => rfl)⟩
  | merge o x =>
    obtain ⟨⟨b, u⟩, hm, rfl⟩ := Option.map_eq_some_iff.mp hn
    exact represents_merge h hm
  | unmerge o x =>
    obtain ⟨⟨b, u⟩, hm, rfl⟩ := Option.map_eq_some_iff.mp hn
    exact represents_unmerge h hm
  | pauseSecondarySource q =>
    rw [(pauseSecondarySource_cases hn).2]
    exact ⟨F, .stay, h.sameLinks (sameLinks_modifyEntry (fun _ => rfl) fun _ => rfl)⟩
  | resumeSecondarySource q => exact stay (sameLinks_resumeSecondarySource hn)

theorem represents_createLoop (h : Represents s F) (hn : s.createLoop = some t) :
    ∃ F', Represents t F' := by
  obtain ⟨hfirst, hsecond⟩ := createLoop_steps hn
  obtain ⟨F₁, -, hF₁⟩ := represents_next h (c := .createTaskQueue) trivial hfirst
  obtain ⟨F₂, -, hF₂⟩ := represents_next hF₁ (c := .setWakeable _ _) trivial hsecond
  exact ⟨F₂, hF₂⟩

theorem represents_create (thread : ThreadId) : Represents (create (C := C) thread) .empty where
  live q := by simp [OwnerForest.empty, Registered, create]
  owner q := by simp [OwnerForest.empty, subsumedBy, create]
  ownerOf o x := by simp [OwnerForest.empty, OwnerForest.Owns, MessageLoopTaskQueues.ownerOf, create]
  fresh q hq := by simp [Registered, create] at hq

theorem represents_reachable {cond : MessageLoopTaskQueues C → QueueCall C → Prop}
    (hcond : ∀ s c, cond s c → s.Allowed c) {thread : ThreadId}
    (h : Reachable next cond (create thread) s) : ∃ F, Represents s F := by
  apply h.invariant (p := fun s => ∃ F, Represents s F)
  · exact ⟨.empty, represents_create thread⟩
  · rintro s c t - ⟨F, hF⟩ hc hn
    obtain ⟨F', -, hF'⟩ := represents_next hF (hcond s c hc) hn
    exact ⟨F', hF'⟩

def ExactlyOne (a b c : Prop) : Prop := (a ∧ ¬ b ∧ ¬ c) ∨ (¬ a ∧ b ∧ ¬ c) ∨ (¬ a ∧ ¬ b ∧ c)

theorem merge_forest {thread : ThreadId} (h : Reachable next Allowed (create (C := C) thread) s) :
    (∀ o x, s.Registered o → s.Registered x → (x ∈ s.ownerOf o ↔ s.subsumedBy x = some o)) ∧
      (∀ o x, x ∈ s.ownerOf o → s.Registered x) ∧
      (∀ o x, s.subsumedBy x = some o → s.Registered o) ∧
      (∀ q, ¬ (s.ownerOf q ≠ [] ∧ s.subsumedBy q ≠ none)) ∧
      (∀ q, q ∉ s.ownerOf q) ∧
      (∀ q, ExactlyOne (s.ownerOf q ≠ []) (s.subsumedBy q ≠ none)
        (s.ownerOf q = [] ∧ s.subsumedBy q = none)) ∧
      (∀ o x t, s.merge o x = some (false, t) → t = s) ∧
      ∀ o x t, s.unmerge o x = some (false, t) → t = s := by
  obtain ⟨F, hF⟩ := represents_reachable (fun _ _ hc => hc) h
  have owner_free : ∀ q, ¬ (s.ownerOf q ≠ [] ∧ s.subsumedBy q ≠ none) := by
    rintro q ⟨hown, hsub⟩
    obtain ⟨x, hx⟩ := List.exists_mem_of_ne_nil _ hown
    obtain ⟨o, ho⟩ := Option.ne_none_iff_exists'.mp hsub
    refine F.not_isOwned_of_isOwner ⟨x, (hF.ownerOf q x).mp hx⟩ ⟨o, ?_⟩
    rw [OwnerForest.Owns, ← hF.owner, ho]
  refine ⟨?_, ?_, ?_, owner_free, ?_, ?_, ?_, ?_⟩
  · intro o x _ _
    rw [hF.ownerOf, hF.owner, OwnerForest.Owns]
  · intro o x hx
    exact (hF.live x).mp (F.owned_live ((hF.ownerOf o x).mp hx))
  · intro o x hx
    rw [hF.owner] at hx
    exact (hF.live o).mp (F.owner_live hx)
  · intro q hq
    exact F.not_owns_self q ((hF.ownerOf q q).mp hq)
  · intro q
    have hq := owner_free q
    unfold ExactlyOne
    tauto
  · intro o x t hm
    rcases merge_cases hm with ⟨rfl, -⟩ | ⟨hb, -⟩
    · rfl
    · cases hb
  · intro o x t hm
    rcases unmerge_cases hm with ⟨-, rfl⟩ | ⟨hb, -⟩
    · rfl
    · cases hb

def mergedRun : List (QueueCall Unit) :=
  [.createTaskQueue, .createTaskQueue, .createTaskQueue, .merge 0 1, .merge 0 2, .merge 1 2,
    .unmerge 0 1]

theorem merge_forest_mergedRun : ∃ s, run next (create 0) mergedRun = some s ∧
    (2 ∈ s.ownerOf 0 ↔ s.subsumedBy 2 = some 0) ∧
      ExactlyOne (s.ownerOf 0 ≠ []) (s.subsumedBy 0 ≠ none)
        (s.ownerOf 0 = [] ∧ s.subsumedBy 0 = none) := by
  refine ⟨_, rfl, ?_⟩
  have hr : Meets next Allowed (create 0) mergedRun := by decide
  obtain ⟨inverse, -, -, -, -, three, -⟩ := merge_forest ⟨mergedRun, hr, rfl⟩
  exact ⟨inverse 0 2 rfl rfl, three 0⟩

end EnvironmentCheck.MessageLoopTaskQueues
